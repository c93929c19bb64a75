import QueryNotation.Proofs.ReaderLaws

/-!
# Passing over tokens

A run of a reader that succeeds passes over a list of tokens. The tokens
and the state before them determine the state after them.
-/

namespace QueryNotation.Reader

variable {α β : Type} {s s₁ s₂ s' : ReaderState} {ts us : List Token}

/-- The reader passes over the tokens, one by one. -/
inductive Passes : ReaderState → List Token → ReaderState → Prop where
  | nil (s : ReaderState) : Passes s [] s
  | cons {s s₁ s₂ : ReaderState} {ts : List Token} (h : advance s = .ok () s₁)
      (hs : Passes s₁ ts s₂) : Passes s (s.token :: ts) s₂

namespace Passes

theorem single (h : advance s = .ok () s₁) : Passes s [s.token] s₁ := .cons h (.nil s₁)

theorem cons_inv {t : Token} (h : Passes s (t :: ts) s') :
    s.token = t ∧ ∃ s₁, advance s = .ok () s₁ ∧ Passes s₁ ts s' := by
  cases h with
  | cons h hs => exact ⟨rfl, _, h, hs⟩

theorem append (h : Passes s ts s₁) (h' : Passes s₁ us s₂) : Passes s (ts ++ us) s₂ := by
  induction h with
  | nil => exact h'
  | cons h hs ih => exact .cons h (ih h')

theorem append_inv (h : Passes s (ts ++ us) s') : ∃ s₁, Passes s ts s₁ ∧ Passes s₁ us s' := by
  induction ts generalizing s with
  | nil => exact ⟨s, .nil s, h⟩
  | cons t ts ih =>
      obtain ⟨rfl, s₁, hadvance, hrest⟩ := h.cons_inv
      obtain ⟨s₂, h₁, h₂⟩ := ih hrest
      exact ⟨s₂, .cons hadvance h₁, h₂⟩

theorem depth_eq (h : Passes s ts s') : s'.depth = s.depth := by
  induction h with
  | nil => rfl
  | cons h hs ih => rw [ih, (advance_eq_ok h).2.2]

theorem atDepth (h : Passes s ts s') (n : Nat) : Passes (s.atDepth n) ts (s'.atDepth n) := by
  induction h with
  | nil => exact .nil _
  | cons h hs ih => exact .cons (advance_atDepth n h) ih

theorem unique (h₁ : Passes s ts s₁) (h₂ : Passes s ts s₂) : s₁ = s₂ := by
  induction h₁ with
  | nil =>
      cases h₂
      rfl
  | cons h hs ih =>
      obtain ⟨-, s₃, h', hs'⟩ := h₂.cons_inv
      rw [h] at h'
      cases h'
      exact ih hs'

/-- Before the end of the text, every token that is passed takes a
character of the text ahead. -/
theorem length_le (h : Passes s ts s') (hts : .endOfText ∉ ts) (hs' : s'.token ≠ .endOfText) :
    ts.length + s'.cursor.ahead.length ≤ s.cursor.ahead.length := by
  induction h with
  | nil => simp
  | @cons s s₁ s₂ ts h hs ih =>
      have htail : Token.endOfText ∉ ts := fun hmem => hts (List.mem_cons_of_mem _ hmem)
      have hne : s₁.token ≠ .endOfText := by
        cases hs with
        | nil => exact hs'
        | cons h₁ hs₁ => exact fun he => htail (by simp [he])
      have hlt := Lexing.length_ahead_lt_of_next (advance_eq_ok h).1 hne
      have hle := ih htail hs'
      rw [List.length_cons]
      omega

end Passes

/-! ## Results within a room -/

/-- A run that needs `cost` levels ends in the given result if there is
room for them, and is cut off otherwise. -/
def LeadsTo (room cost : Nat) (run result : EStateM.Result ReadError ReaderState α) : Prop :=
  (cost ≤ room → run = result) ∧
    (room < cost → ∃ place s', run = .error (.tooDeep place) s')

theorem LeadsTo.refl (room : Nat) (run : EStateM.Result ReadError ReaderState α) :
    LeadsTo room 0 run run :=
  ⟨fun _ => rfl, fun h => (Nat.not_lt_zero _ h).elim⟩

/-- Reading on after a run takes the larger of the two costs. -/
theorem LeadsTo.bind {x : Reader α} {f : α → Reader β} {a : α} {room m n : Nat}
    {result : EStateM.Result ReadError ReaderState β}
    (hx : LeadsTo room m (x s) (.ok a s₁)) (hf : m ≤ room → LeadsTo room n (f a s₁) result) :
    LeadsTo room (max m n) ((x >>= f) s) result := by
  constructor
  · intro h
    have hm : m ≤ room := by omega
    rw [bind_of_ok (hx.1 hm)]
    exact (hf hm).1 (by omega)
  · intro h
    by_cases hm : m ≤ room
    · rw [bind_of_ok (hx.1 hm)]
      exact (hf hm).2 (by omega)
    · obtain ⟨place, s', hs'⟩ := hx.2 (by omega)
      exact ⟨place, s', bind_of_error hs'⟩

/-- Reading on by steps that take no levels. -/
theorem LeadsTo.bind_ok {x : Reader α} {f : α → Reader β} {a : α} {b : β} {room n : Nat}
    (hx : LeadsTo room n (x s) (.ok a s₁)) (hf : f a s₁ = .ok b s') :
    LeadsTo room n ((x >>= f) s) (.ok b s') := by
  have h : LeadsTo room (max n 0) ((x >>= f) s) (.ok b s') := by
    refine hx.bind fun _ => ?_
    rw [hf]
    exact .refl room _
  rwa [Nat.max_zero] at h

theorem LeadsTo.restoringDepth {x : Reader α} {a : α} {room n : Nat}
    (hx : LeadsTo room n (x s) (.ok a s₁)) :
    LeadsTo room n (Reader.restoringDepth x s) (.ok a (s₁.atDepth s.depth)) := by
  constructor
  · intro h
    exact restoringDepth_of_ok (hx.1 h)
  · intro h
    obtain ⟨place, s', hs'⟩ := hx.2 h
    exact ⟨place, s', restoringDepth_of_error hs'⟩

/-- The readers one level deeper, if there is room. -/
def deeper : Nat → Option Levels
  | 0 => none
  | room + 1 => some (levels room)

theorem levels_eq (room : Nat) : levels room = atDepth (deeper room) := by
  cases room <;> rfl

theorem LeadsTo.descend {reader : Levels → Reader α} {room n : Nat}
    {result : EStateM.Result ReadError ReaderState α}
    (h : ∀ r, room = r + 1 →
      LeadsTo r n (reader (levels r) (s.atDepth (s.depth + 1))) result) :
    LeadsTo room (n + 1) (Reader.descend (deeper room) reader s) result := by
  cases room with
  | zero => exact ⟨fun h => by omega, fun _ => ⟨_, _, descend_none reader⟩⟩
  | succ r =>
      have hr := h r rfl
      rw [deeper, descend_some]
      exact ⟨fun hn => hr.1 (by omega), fun hn => hr.2 (by omega)⟩

end QueryNotation.Reader
