import QueryNotation.Proofs.Grammar

/-!
# Where operands stand

Whether a parenthesis opens the arguments of a call or a group can be told
from the tokens before it. One that follows a complete operand other than
a word opens neither, and no derivation has it. The places between tokens
are followed from left to right, with the parentheses that are open. A
marker is complete where an item starts, and a word nowhere else.
-/

namespace QueryNotation

open BinaryOperator

/-- What may come next. After a word this is an operator or arguments, and
after any other operand an operator alone. -/
inductive Turn where
  | item
  | operand
  | word
  | operator
  deriving DecidableEq

/-- A place between tokens, and how many parentheses are open there. -/
structure Place where
  depth : Nat
  turn : Turn

namespace Place

/-- The place after a comma. Outside of parentheses it is that of an item. -/
def start (depth : Nat) : Place := ⟨depth, if depth = 0 then .item else .operand⟩

/-- The next place, unless the token opens a parenthesis where none may be. -/
def step (p : Place) : Token → Option Place
  | .literal _ => some ⟨p.depth, .operator⟩
  | .word name =>
    some ⟨p.depth, if p.turn = .item ∧ name ∈ ["distinct", "all"] then .operator else .word⟩
  | .symbol .and | .symbol .or =>
    some ⟨p.depth, if p.turn = .item ∨ p.turn = .operand then .operator else .operand⟩
  | .symbol .openParen => if p.turn = .operator then none else some ⟨p.depth + 1, .operand⟩
  | .symbol .closeParen => some ⟨p.depth - 1, .operator⟩
  | .symbol .comma => some (start p.depth)
  | _ => some ⟨p.depth, .operand⟩

def run (p : Place) : List Token → Option Place
  | [] => some p
  | t :: ts => (p.step t).bind fun q => q.run ts

theorem run_append (p : Place) (ts us : List Token) :
    p.run (ts ++ us) = (p.run ts).bind fun q => q.run us := by
  induction ts generalizing p with
  | nil => rfl
  | cons t ts ih =>
      cases h : p.step t with
      | none => simp [run, h]
      | some q => simpa [run, h] using ih q

/-- After a complete operand, at some depth. -/
def IsAfter (depth : Nat) (p : Place) : Prop := p = ⟨depth, .word⟩ ∨ p = ⟨depth, .operator⟩

theorem IsAfter.depth_eq {depth : Nat} {p : Place} (h : p.IsAfter depth) : p.depth = depth := by
  rcases h with rfl | rfl <;> rfl

theorem IsAfter.step_operator {depth : Nat} {p : Place} {t : Token} {op : BinaryOperator}
    (h : p.IsAfter depth) (hop : ofToken? t = some op) : p.step t = some ⟨depth, .operand⟩ := by
  cases t with
  | symbol s => rcases h with rfl | rfl <;> cases s <;> first | rfl | cases hop
  | literal | word | endOfText => cases hop

theorem step_sign {depth : Nat} {t : Token} {op : UnaryOperator}
    (hop : UnaryOperator.ofToken? t = some op) :
    (Place.mk depth .operand).step t = some ⟨depth, .operand⟩ := by
  cases t with
  | symbol s => cases s <;> first | rfl | cases hop
  | literal | word | endOfText => cases hop

/-- An item that is no marker starts as any operand does. -/
theorem run_item {ts : List Token} (hne : ts ≠ []) (depth : Nat)
    (hmarker : ∀ name ∈ ["distinct", "all"], ts.head? ≠ some (.word name)) :
    (Place.mk depth .item).run ts = (Place.mk depth .operand).run ts := by
  obtain ⟨t, us, rfl⟩ := List.exists_cons_of_ne_nil hne
  have hstep : (Place.mk depth .item).step t = (Place.mk depth .operand).step t := by
    cases t with
    | word name =>
        have hname : name ∉ ["distinct", "all"] := by
          intro hmem
          exact hmarker name hmem rfl
        simp only [step, hname, and_false, reduceIte]
    | symbol s => cases s <;> rfl
    | literal | endOfText => rfl
  rw [run, run, hstep]

/-- A word allows whatever another operand does. -/
theorem run_word_of_operator {ts : List Token} {depth : Nat} {p : Place}
    (h : (Place.mk depth .operator).run ts = some p) :
    ∃ q, (Place.mk depth .word).run ts = some q ∧ q.depth = p.depth := by
  cases ts with
  | nil =>
      cases h
      exact ⟨_, rfl, rfl⟩
  | cons t ts =>
      rw [run, Option.bind_eq_some_iff] at h
      obtain ⟨q, hstep, hq⟩ := h
      have hword : (Place.mk depth .word).step t = some q := by
        cases t with
        | symbol s => cases s <;> first | exact hstep | cases hstep
        | literal | word | endOfText => exact hstep
      exact ⟨p, by rw [run, hword, Option.bind_some, hq], rfl⟩

/-- The place of an operand allows whatever that of an item does. -/
theorem run_operand_of_item {ts : List Token} {depth : Nat} {p : Place}
    (h : (Place.mk depth .item).run ts = some p) :
    ∃ q, (Place.mk depth .operand).run ts = some q ∧ q.depth = p.depth := by
  by_cases hmarker : ∃ name ∈ ["distinct", "all"], ts.head? = some (.word name)
  · obtain ⟨name, hname, hhead⟩ := hmarker
    obtain ⟨us, rfl⟩ := List.head?_eq_some_iff.1 hhead
    have hitem : (Place.mk depth .item).step (.word name) = some ⟨depth, .operator⟩ := by
      simp only [step, hname, and_self, reduceIte]
    have hoperand : (Place.mk depth .operand).step (.word name) = some ⟨depth, .word⟩ := by
      simp [step]
    rw [run, hitem, Option.bind_some] at h
    rw [run, hoperand, Option.bind_some]
    exact run_word_of_operator h
  · cases ts with
    | nil =>
        cases h
        exact ⟨_, rfl, rfl⟩
    | cons t ts =>
        refine ⟨p, ?_, rfl⟩
        rw [← run_item (List.cons_ne_nil t ts) depth fun name hname hhead => hmarker ⟨name, hname, hhead⟩]
        exact h

theorem run_append_eq_some {p q : Place} {ts us : List Token} (h : p.run (ts ++ us) = some q) :
    ∃ r, p.run ts = some r ∧ r.run us = some q := by
  rwa [run_append, Option.bind_eq_some_iff] at h

/-- If a run gets past the parts, it gets past each of them. -/
theorem exists_run_of_intercalate {depth : Nat} {parts : List (List Token)} {q : Place}
    (hdepth : ∀ ts ∈ parts, ∀ p, (start depth).run ts = some p → p.depth = depth)
    (h : (start depth).run ([.symbol .comma].intercalate parts) = some q) :
    ∀ ts ∈ parts, ∃ p, (start depth).run ts = some p := by
  induction parts with
  | nil => simp
  | cons ts parts ih =>
      obtain ⟨hts, hparts⟩ := List.forall_mem_cons.1 hdepth
      cases parts with
      | nil => exact List.forall_mem_singleton.2 ⟨q, by simpa using h⟩
      | cons us parts =>
          rw [List.intercalate_cons_cons, List.append_assoc] at h
          obtain ⟨p, hp, hrest⟩ := run_append_eq_some h
          rw [List.singleton_append, run, step, hts p hp, Option.bind_some] at hrest
          exact List.forall_mem_cons.2 ⟨⟨p, hp⟩, ih hparts hrest⟩

end Place

/-! ## Derivations -/

open Place

theorem CommaJoined.run {parts : List (List Token × Directive)} {ts : List Token}
    (h : CommaJoined parts ts) (depth : Nat)
    (hparts : ∀ p ∈ parts, ∃ q, (start (depth + 1)).run p.1 = some q ∧ q.IsAfter (depth + 1)) :
    ∃ q, (start (depth + 1)).run ts = some q ∧ q.depth = depth + 1 := by
  induction h with
  | nil => exact ⟨_, rfl, rfl⟩
  | last p =>
      obtain ⟨q, hq, hafter⟩ := hparts p (by simp)
      exact ⟨q, hq, hafter.depth_eq⟩
  | cons p h ih =>
      obtain ⟨hp, hrest⟩ := List.forall_mem_cons.1 hparts
      obtain ⟨q, hq, hafter⟩ := hp
      rw [run_append, hq, Option.bind_some, Place.run, step, hafter.depth_eq]
      exact ih hrest

/-- An expression leads from the place of an operand to the one after it. -/
theorem Derives.run {level : Nat} {ts : List Token} {d : Directive} (h : Derives level ts d)
    (depth : Nat) : ∃ p, (Place.mk depth .operand).run ts = some p ∧ p.IsAfter depth := by
  induction h generalizing depth with
  | literal value => exact ⟨_, rfl, .inr rfl⟩
  | column name => exact ⟨⟨depth, .word⟩, by simp [Place.run, step], .inl rfl⟩
  | andColumn => exact ⟨_, rfl, .inr rfl⟩
  | orColumn => exact ⟨_, rfl, .inr rfl⟩
  | @call ts name parts hjoined hparts ih =>
      obtain ⟨p, hp, hdepth⟩ := hjoined.run depth fun p hp => ih p hp (depth + 1)
      refine ⟨⟨depth, .operator⟩, ?_, .inr rfl⟩
      have hword : (Place.mk depth .operand).step (.word name) = some ⟨depth, .word⟩ := by simp [step]
      have hopen : (Place.mk depth .word).step (.symbol .openParen) = some (start (depth + 1)) := rfl
      rw [Place.run, hword, Option.bind_some, Place.run, hopen, Option.bind_some, run_append, hp,
        Option.bind_some, Place.run, step, hdepth]
      rfl
  | @group ts d h ih =>
      obtain ⟨p, hp, hafter⟩ := ih (depth + 1)
      refine ⟨⟨depth, .operator⟩, ?_, .inr rfl⟩
      have hopen : (Place.mk depth .operand).step (.symbol .openParen) =
          some ⟨depth + 1, .operand⟩ := rfl
      rw [Place.run, hopen, Option.bind_some, run_append, hp, Option.bind_some, Place.run, step,
        hafter.depth_eq]
      rfl
  | unary hop h ih =>
      rw [Place.run, step_sign hop]
      exact ih depth
  | lift h ih => exact ih depth
  | binary ha hop hb iha ihb =>
      obtain ⟨p, hp, hafter⟩ := iha depth
      rw [run_append, hp, Option.bind_some, Place.run,
        hafter.step_operator (atLevel?_eq_some_iff.1 hop).1]
      exact ihb depth

theorem DerivesItem.run {n : Nat} {ts : List Token} {d : Directive} (h : DerivesItem n ts d) :
    ∃ p, (start 0).run ts = some p ∧ p.depth = 0 := by
  cases h with
  | distinct => exact ⟨_, rfl, rfl⟩
  | all => exact ⟨_, rfl, rfl⟩
  | expression h hdistinct hall hread =>
      obtain ⟨p, hp, hafter⟩ := h.run 0
      refine ⟨p, ?_, hafter.depth_eq⟩
      rw [← hp]
      apply run_item h.ne_nil
      simpa using ⟨hdistinct, hall⟩

theorem DerivesItems.run {n : Nat} {ts : List Token} {ds : List Directive}
    (h : DerivesItems n ts ds) : ∃ p, (start 0).run ts = some p ∧ p.depth = 0 := by
  have hslot {n : Nat} {ts : List Token} {ds : List Directive} (h : DerivesSlot n ts ds) :
      ∃ p, (start 0).run ts = some p ∧ p.depth = 0 := by
    cases h with
    | empty => exact ⟨_, rfl, rfl⟩
    | item h => exact h.run
  induction h with
  | last h => exact hslot h
  | cons hhere h ih =>
      obtain ⟨p, hp, hdepth⟩ := hslot hhere
      rw [run_append, hp, Option.bind_some, Place.run, step, hdepth]
      exact ih

end QueryNotation
