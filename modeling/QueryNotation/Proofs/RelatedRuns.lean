import QueryNotation.Proofs.QueryAcceptance

/-!
# Two runs side by side

A reader sees of a text only the tokens that it passes, and of their
places only what its errors carry. So two runs go the same way as long as
their states are in step, whatever being in step means for the places and
for the text still ahead. The first run may leave the part of its text
over which the two agree. From then on nothing is compared.
-/

namespace QueryNotation

open BinaryOperator Text

/-! ## Characters to spare

Lists of arguments and of items are read with the characters left as a
bound. How many more there are makes no difference.
-/

/-- How many characters are left at most to read tokens from, when the token ahead
counts for one of them. -/
def ReaderState.remaining (s : ReaderState) : Nat :=
  s.cursor.ahead.length + if s.token = .endOfText then 0 else 1

namespace Reader

variable {s s' : ReaderState}

theorem remaining_le_of_advance (h : advance s = .ok () s') :
    s'.remaining ≤ s.cursor.ahead.length := by
  obtain ⟨hnext, -⟩ := advance_eq_ok h
  rw [ReaderState.remaining]
  by_cases hend : s'.token = .endOfText
  · rw [hend] at hnext
    simp [hend, Lexer.ahead_eq_nil_of_next hnext]
  · have hlt := Lexing.length_ahead_lt_of_next hnext hend
    rw [if_neg hend]
    omega

theorem length_ahead_lt_of_argument {room : Nat} {first : Directive} {s₁ s₂ : ReaderState}
    (hfirst : (levels room).chain loosest s = .ok first s₁)
    (hseparator : separator s₁ = .ok () s₂) :
    s₂.cursor.ahead.length < s.cursor.ahead.length := by
  obtain ⟨ts, hpass, hderives, -⟩ := (levels_sound room).chain hfirst
  have hts := List.length_pos_iff.2 hderives.ne_nil
  rcases separator_sound hseparator with ⟨hclose, rfl⟩ | ⟨hcomma, hadvance⟩
  · have hle := hpass.length_le hderives.endOfText_notMem (by simp [hclose])
    omega
  · have hle := hpass.length_le hderives.endOfText_notMem (by simp [hcomma])
    have hstep : s₂.remaining ≤ s₁.cursor.ahead.length := remaining_le_of_advance hadvance
    rw [ReaderState.remaining] at hstep
    omega

theorem arguments_eq_of_length_le {room : Nat} {left left' : List Char}
    (h : s.cursor.ahead.length ≤ left.length) (h' : s.cursor.ahead.length ≤ left'.length) :
    arguments (levels room) left s = arguments (levels room) left' s := by
  induction left generalizing s left' with
  | nil =>
      by_cases hclose : s.token = .symbol .closeParen
      · rw [arguments_of_close hclose, arguments_of_close hclose]
      · rw [arguments_of_ne hclose, arguments_of_ne hclose]
        refine bind_congr_of_ok fun first s₁ hfirst => bind_congr_of_ok fun _ s₂ hseparator => ?_
        have hlt := length_ahead_lt_of_argument hfirst hseparator
        exact (Nat.not_lt_zero _ (Nat.lt_of_lt_of_le hlt h)).elim
  | cons c left ih =>
      by_cases hclose : s.token = .symbol .closeParen
      · rw [arguments_of_close hclose, arguments_of_close hclose]
      · rw [arguments_of_ne hclose, arguments_of_ne hclose]
        refine bind_congr_of_ok fun first s₁ hfirst => bind_congr_of_ok fun _ s₂ hseparator => ?_
        have hlt := length_ahead_lt_of_argument hfirst hseparator
        have hpos := Nat.zero_lt_of_lt (Nat.lt_of_lt_of_le hlt h')
        obtain ⟨c', left', rfl⟩ := List.exists_cons_of_length_pos hpos
        rw [List.length_cons] at h h'
        exact bind_of_eq (ih (by omega) (by omega))

theorem Passes.token_ne_endOfText {ts : List Token} (h : Passes s ts s') (hts : .endOfText ∉ ts)
    (hs' : s'.token ≠ .endOfText) : s.token ≠ .endOfText := by
  cases h with
  | nil => exact hs'
  | cons h hs => exact fun hend => hts (by simp [hend])

/-- Items are only read on after a comma, which takes a character of its own. -/
theorem length_ahead_lt_of_possibleItem {here : List Directive} {s₁ : ReaderState}
    (h : possibleItem s = .ok here s₁) (hcomma : s₁.token = .symbol .comma) :
    s₁.cursor.ahead.length < s.remaining := by
  obtain ⟨n, ts, hpass, hslot, -⟩ := possibleItem_sound h
  have hts := (DerivesItems.last hslot).endOfText_notMem
  have hne : s₁.token ≠ .endOfText := by simp [hcomma]
  have hle := hpass.length_le hts hne
  rw [ReaderState.remaining, if_neg (hpass.token_ne_endOfText hts hne)]
  omega

theorem items_eq_of_remaining_le {left left' : List Char} (h : s.remaining ≤ left.length)
    (h' : s.remaining ≤ left'.length) : items left s = items left' s := by
  induction left generalizing s left' with
  | nil =>
      rw [items_eq, items_eq]
      refine bind_congr_of_ok fun here s₁ hhere => ?_
      by_cases hcomma : s₁.token = .symbol .comma
      · have hlt := length_ahead_lt_of_possibleItem hhere hcomma
        exact (Nat.not_lt_zero _ (Nat.lt_of_lt_of_le hlt h)).elim
      · rw [itemsRest_of_ne hcomma, itemsRest_of_ne hcomma]
  | cons c left ih =>
      rw [items_eq, items_eq]
      refine bind_congr_of_ok fun here s₁ hhere => ?_
      by_cases hcomma : s₁.token = .symbol .comma
      · have hlt := length_ahead_lt_of_possibleItem hhere hcomma
        obtain ⟨c', left', rfl⟩ := List.exists_cons_of_length_pos (l := left') (by omega)
        rw [List.length_cons] at h h'
        rw [itemsRest_cons hcomma, itemsRest_cons hcomma]
        refine bind_congr_of_ok fun _ s₂ hadvance => bind_of_eq ?_
        have hle := remaining_le_of_advance hadvance
        exact ih (by omega) (by omega)
      · rw [itemsRest_of_ne hcomma, itemsRest_of_ne hcomma]

end Reader

/-! ## Comparisons -/

/-- What two runs have in common. -/
structure Comparison where
  /-- States in which the runs are in step. -/
  states : ReaderState → ReaderState → Prop
  places : Position → Position → Prop
  faults : LexError → LexError → Prop
  /-- States from which the first run is no longer compared. -/
  beyond : ReaderState → Prop
  /-- Faults in the text after which the first run is no longer compared. -/
  excused : LexError → Prop

namespace Comparison

variable (C : Comparison) {α β : Type}

/-- The errors say the same of corresponding places. -/
inductive Errors : ReadError → ReadError → Prop where
  | lexical {e₁ e₂ : LexError} (h : C.faults e₁ e₂) : Errors (.lexical e₁) (.lexical e₂)
  | unexpected (expected : Expectation) (found : Token) {p₁ p₂ : Position} (h : C.places p₁ p₂) :
      Errors (.unexpected expected found p₁) (.unexpected expected found p₂)
  | invalidDirection (found : Directive) {p₁ p₂ : Position} (h : C.places p₁ p₂) :
      Errors (.invalidDirection found p₁) (.invalidDirection found p₂)
  | clauseArity (clause : String) (count : Nat) {p₁ p₂ : Position} (h : C.places p₁ p₂) :
      Errors (.clauseArity clause count p₁) (.clauseArity clause count p₂)
  | tooDeep {p₁ p₂ : Position} (h : C.places p₁ p₂) : Errors (.tooDeep p₁) (.tooDeep p₂)

/-- The first run is no longer compared. -/
def Left : EStateM.Result ReadError ReaderState α → Prop
  | .ok _ s => C.beyond s
  | .error e s => C.beyond s ∨ ∃ fault, e = .lexical fault ∧ C.excused fault

inductive Results : EStateM.Result ReadError ReaderState α →
    EStateM.Result ReadError ReaderState α → Prop where
  | ok (a : α) {s₁ s₂ : ReaderState} (h : C.states s₁ s₂) : Results (.ok a s₁) (.ok a s₂)
  | error {e₁ e₂ : ReadError} {s₁ s₂ : ReaderState} (he : C.Errors e₁ e₂) (h : C.states s₁ s₂) :
      Results (.error e₁ s₁) (.error e₂ s₂)
  | left {r₁ r₂ : EStateM.Result ReadError ReaderState α} (h : C.Left r₁) : Results r₁ r₂

/-- Two readers go the same way, and do not come back to where they are compared. -/
structure Compares (x₁ x₂ : Reader α) : Prop where
  states : ∀ {s₁ s₂ : ReaderState}, C.states s₁ s₂ → C.Results (x₁ s₁) (x₂ s₂)
  beyond : ∀ {s : ReaderState}, C.beyond s → C.Left (x₁ s)

abbrev Respects (x : Reader α) : Prop := C.Compares x x

/-- What a comparison needs for all readers to go the same way: states in step
agree on the token ahead and the depth, and reading one token keeps step. -/
structure IsLawful : Prop where
  token_eq : ∀ {s₁ s₂ : ReaderState}, C.states s₁ s₂ → s₁.token = s₂.token
  depth_eq : ∀ {s₁ s₂ : ReaderState}, C.states s₁ s₂ → s₁.depth = s₂.depth
  start : ∀ {s₁ s₂ : ReaderState}, C.states s₁ s₂ → C.places s₁.start s₂.start
  atDepth : ∀ {s₁ s₂ : ReaderState}, C.states s₁ s₂ →
    ∀ n, C.states (s₁.atDepth n) (s₂.atDepth n)
  beyond_atDepth : ∀ {s : ReaderState}, C.beyond s → ∀ n, C.beyond (s.atDepth n)
  advance : C.Respects Reader.advance
  take : C.Respects Reader.take

variable {C}

/-! ## Combinators -/

theorem Left.bind {x : Reader α} {f : α → Reader β} {s : ReaderState} (hx : C.Left (x s))
    (hf : ∀ a s₁, x s = .ok a s₁ → C.beyond s₁ → C.Left (f a s₁)) : C.Left ((x >>= f) s) := by
  cases hr : x s with
  | ok a s₁ =>
      rw [Reader.bind_of_ok hr]
      exact hf a s₁ hr (by rwa [hr] at hx)
  | error e s₁ =>
      rw [Reader.bind_of_error hr]
      rwa [hr] at hx

namespace Compares

variable {x x₁ x₂ y₁ y₂ : Reader α}

theorem pure (a : α) : C.Respects (Pure.pure a : Reader α) := ⟨fun h => .ok a h, id⟩

theorem throw {e₁ e₂ : ReadError} (h : C.Errors e₁ e₂) :
    C.Compares (MonadExcept.throw e₁ : Reader α) (MonadExcept.throw e₂) :=
  ⟨fun hs => .error h hs, .inl⟩

theorem bind {f₁ f₂ : α → Reader β} (hx : C.Compares x₁ x₂)
    (hf : ∀ a, C.Compares (f₁ a) (f₂ a)) : C.Compares (x₁ >>= f₁) (x₂ >>= f₂) := by
  constructor
  · intro s₁ s₂ hs
    have hr := hx.states hs
    generalize h₁ : x₁ s₁ = r₁ at hr
    generalize h₂ : x₂ s₂ = r₂ at hr
    cases hr with
    | ok a h =>
        rw [Reader.bind_of_ok h₁, Reader.bind_of_ok h₂]
        exact (hf a).states h
    | error he h =>
        rw [Reader.bind_of_error h₁, Reader.bind_of_error h₂]
        exact .error he h
    | left h => exact .left (Left.bind (h₁ ▸ h) fun a _ _ hbeyond => (hf a).beyond hbeyond)
  · intro s hs
    exact (hx.beyond hs).bind fun a _ _ hbeyond => (hf a).beyond hbeyond

/-- Readers may be replaced by readers that do the same in the states at hand. -/
theorem of_eq
    (hstates : ∀ s₁ s₂, C.states s₁ s₂ → ∃ y₁ y₂ : Reader α, C.Compares y₁ y₂ ∧
      x₁ s₁ = y₁ s₁ ∧ x₂ s₂ = y₂ s₂)
    (hbeyond : ∀ s, C.beyond s → C.Left (x₁ s)) : C.Compares x₁ x₂ := by
  constructor
  · intro s₁ s₂ hs
    obtain ⟨y₁, y₂, hy, h₁, h₂⟩ := hstates s₁ s₂ hs
    rw [h₁, h₂]
    exact hy.states hs
  · intro s hs
    exact hbeyond s hs

/-- It is enough to look at the token ahead. -/
theorem of_token (hC : C.IsLawful)
    (h : ∀ t, ∃ y : Reader α, C.Respects y ∧ ∀ s, s.token = t → x s = y s) : C.Respects x := by
  apply of_eq
  · intro s₁ s₂ hs
    obtain ⟨y, hy, heq⟩ := h s₁.token
    exact ⟨y, y, hy, heq s₁ rfl, heq s₂ (hC.token_eq hs).symm⟩
  · intro s hs
    obtain ⟨y, hy, heq⟩ := h s.token
    rw [heq s rfl]
    exact hy.beyond hs

theorem fail (hC : C.IsLawful) (expected : Expectation) :
    C.Respects (Reader.fail expected : Reader α) := by
  constructor
  · intro s₁ s₂ hs
    rw [Reader.fail_eq, Reader.fail_eq, hC.token_eq hs]
    exact .error (.unexpected expected _ (hC.start hs)) hs
  · intro s hs
    rw [Reader.fail_eq]
    exact .inl hs

theorem expect (hC : C.IsLawful) (t : Token) : C.Respects (Reader.expect t) := by
  refine of_token hC fun u => ?_
  by_cases hu : u = t
  · subst hu
    exact ⟨_, hC.advance, fun s hs => Reader.expect_of_eq hs⟩
  · refine ⟨_, fail hC (.token t), fun s hs => ?_⟩
    rw [Reader.expect_of_ne (hs ▸ hu), Reader.fail_eq]

theorem restoringDepth (hC : C.IsLawful) (hx : C.Respects x) :
    C.Respects (Reader.restoringDepth x) := by
  have hleft {s : ReaderState} (h : C.Left (x s)) : C.Left (Reader.restoringDepth x s) := by
    cases hr : x s with
    | ok a s₁ =>
        rw [hr] at h
        rw [Reader.restoringDepth_of_ok hr]
        exact hC.beyond_atDepth h _
    | error e s₁ =>
        rw [Reader.restoringDepth_of_error hr]
        rwa [hr] at h
  constructor
  · intro s₁ s₂ hs
    have hr := hx.states hs
    generalize h₁ : x s₁ = r₁ at hr
    generalize h₂ : x s₂ = r₂ at hr
    cases hr with
    | ok a h =>
        rw [Reader.restoringDepth_of_ok h₁, Reader.restoringDepth_of_ok h₂, hC.depth_eq hs]
        exact .ok a (hC.atDepth h _)
    | error he h =>
        rw [Reader.restoringDepth_of_error h₁, Reader.restoringDepth_of_error h₂]
        exact .error he h
    | left h => exact .left (hleft (h₁ ▸ h))
  · intro s hs
    exact hleft (hx.beyond hs)

theorem descend (hC : C.IsLawful) {below : Option Levels} {reader : Levels → Reader α}
    (h : ∀ levels, below = some levels → C.Respects (reader levels)) :
    C.Respects (Reader.descend below reader) := by
  cases below with
  | none =>
      constructor
      · intro s₁ s₂ hs
        rw [Reader.descend_none, Reader.descend_none, hC.depth_eq hs]
        exact .error (.tooDeep (hC.start hs)) (hC.atDepth hs _)
      · intro s hs
        rw [Reader.descend_none]
        exact .inl (hC.beyond_atDepth hs _)
  | some levels =>
      constructor
      · intro s₁ s₂ hs
        rw [Reader.descend_some, Reader.descend_some, hC.depth_eq hs]
        exact (h levels rfl).states (hC.atDepth hs _)
      · intro s hs
        rw [Reader.descend_some]
        exact (h levels rfl).beyond (hC.beyond_atDepth hs _)

end Compares

/-! ## Readers of expressions -/

variable (C) in
/-- The readers of a depth and of the arguments of a call there. -/
structure RespectsLevels (levels : Levels) : Prop where
  chain : ∀ level, C.Respects (levels.chain level)
  chainRest : ∀ level left, C.Respects (levels.chainRest level left)
  callArguments : C.Respects (Reader.callArguments levels)

variable (C) in
abbrev RespectsBelow (below : Option Levels) : Prop :=
  ∀ levels, below = some levels → C.RespectsLevels levels

namespace Compares

section

variable {below : Option Levels} (hC : C.IsLawful) (hbelow : C.RespectsBelow below)

include hC hbelow

theorem inner (level : Nat) :
    C.Respects (Reader.restoringDepth (Reader.descend below fun levels => levels.chain level)) :=
  restoringDepth hC (descend hC fun levels hlevels => (hbelow levels hlevels).chain level)

theorem chainRest (level : Nat) (left : Directive) :
    C.Respects (Reader.chainRest below level left) := by
  refine of_token hC fun t => ?_
  cases hop : atLevel? level t with
  | none => exact ⟨_, pure left, fun s hs => Reader.chainRest_of_none (hs ▸ hop)⟩
  | some op =>
      refine ⟨_, ?_, fun s hs => Reader.chainRest_of_some (hs ▸ hop)⟩
      refine hC.advance.bind fun _ => descend hC fun levels hlevels => ?_
      exact ((hbelow levels hlevels).chain _).bind
        fun right => (hbelow levels hlevels).chainRest _ _

theorem afterName (name : String) : C.Respects (Reader.afterName below name) := by
  refine of_token hC fun t => ?_
  by_cases ht : t = .symbol .openParen
  · refine ⟨_, ?_, fun s hs => Reader.afterName_of_open (hs.trans ht)⟩
    refine hC.advance.bind fun _ => bind ?_ fun arguments => pure _
    exact restoringDepth hC (descend hC fun levels hlevels => (hbelow levels hlevels).callArguments)
  · exact ⟨_, pure (.column name), fun s hs => Reader.afterName_of_ne (hs ▸ ht)⟩

theorem primary : C.Respects (Reader.primary below) := by
  refine of_token hC fun t => ?_
  have hother (h : ∀ s : ReaderState, s.token = t →
      Reader.primary below s = Reader.fail .expression s) : ∃ y : Reader Directive, C.Respects y ∧
        ∀ s, s.token = t → Reader.primary below s = y s := ⟨_, fail hC .expression, h⟩
  cases t with
  | literal value =>
      exact ⟨_, hC.take.bind fun _ => pure _, fun s hs => Reader.primary_of_literal hs⟩
  | word name =>
      exact ⟨_, hC.take.bind fun _ => afterName hC hbelow name,
        fun s hs => Reader.primary_of_word hs⟩
  | endOfText => exact hother fun s hs => by rw [Reader.primary, Reader.get_bind, hs]
  | symbol symbol =>
      cases symbol with
      | and => exact ⟨_, hC.take.bind fun _ => pure _, fun s hs => Reader.primary_of_and hs⟩
      | or => exact ⟨_, hC.take.bind fun _ => pure _, fun s hs => Reader.primary_of_or hs⟩
      | openParen =>
          refine ⟨_, ?_, fun s hs => Reader.primary_of_openParen hs⟩
          refine hC.take.bind fun _ => (inner hC hbelow loosest).bind fun d => ?_
          exact (expect hC (.symbol .closeParen)).bind fun _ => pure _
      | _ => exact hother fun s hs => by rw [Reader.primary, Reader.get_bind, hs]

theorem prefixed :
    C.Respects (Reader.prefixed below) := by
  refine of_token hC fun t => ?_
  cases hop : UnaryOperator.ofToken? t with
  | none => exact ⟨_, primary hC hbelow, fun s hs => Reader.prefixed_of_none (hs ▸ hop)⟩
  | some op =>
      refine ⟨_, ?_, fun s hs => Reader.prefixed_of_some (hs ▸ hop)⟩
      exact hC.advance.bind fun _ => (inner hC hbelow 0).bind fun operand => pure _

theorem chain (level : Nat) :
    C.Respects (Reader.chain below level) := by
  induction level with
  | zero => exact prefixed hC hbelow
  | succ level ih =>
      rw [Reader.chain_succ]
      exact restoringDepth hC (ih.bind fun left => chainRest hC hbelow (level + 1) left)

end

theorem asItem (word : String) (e : Directive) {p₁ p₂ : Position} (hplaces : C.places p₁ p₂) :
    C.Compares (Reader.asItem word p₁ e) (Reader.asItem word p₂ e) := by
  cases e with
  | call name arguments =>
      rw [Reader.asItem, Reader.asItem]
      by_cases hname : name = word
      · rw [if_pos hname, if_pos hname]
        unfold Reader.clauseOfCall
        split
        next => exact pure _
        next => exact pure _
        next => exact pure _
        next key direction hnone =>
          cases direction.direction? with
          | some x => exact pure _
          | none => exact throw (.invalidDirection direction hplaces)
        next => exact throw (.clauseArity word _ hplaces)
      · rw [if_neg hname, if_neg hname]
        exact pure _
  | _ => exact pure _

theorem left_asItem {s : ReaderState} (hs : C.beyond s) (word : String) (place : Position)
    (e : Directive) : C.Left (Reader.asItem word place e s) := by
  cases e with
  | call name arguments =>
      rw [Reader.asItem]
      by_cases hname : name = word
      · rw [if_pos hname]
        cases Reader.clauseOfCall word arguments place with
        | ok d => exact hs
        | error e => exact .inl hs
      · rw [if_neg hname]
        exact hs
  | _ => exact hs

section

variable (hC : C.IsLawful)

include hC

theorem separator : C.Respects Reader.separator := by
  refine of_token hC fun t => ?_
  by_cases ht : t = .symbol .closeParen
  · exact ⟨_, pure (), fun s hs => Reader.separator_of_close (hs.trans ht)⟩
  · exact ⟨_, expect hC (.symbol .comma), fun s hs => Reader.separator_of_ne (hs ▸ ht)⟩

/-- Two runs that read arguments with the same bound. -/
theorem arguments {levels : Levels} (hchain : C.Respects (levels.chain loosest))
    (left : List Char) : C.Respects (Reader.arguments levels left) := by
  have hclose {left : List Char} : ∀ s : ReaderState, s.token = .symbol .closeParen →
      Reader.arguments levels left s = (Reader.advance >>= fun _ => Pure.pure []) s :=
    fun s hs => Reader.arguments_of_close hs
  induction left with
  | nil =>
      refine of_token hC fun t => ?_
      by_cases ht : t = .symbol .closeParen
      · exact ⟨_, hC.advance.bind fun _ => pure [], fun s hs => hclose s (hs.trans ht)⟩
      · refine ⟨_, ?_, fun s hs => Reader.arguments_of_ne (hs ▸ ht)⟩
        exact hchain.bind fun first => (separator hC).bind fun _ => fail hC _
  | cons c left ih =>
      refine of_token hC fun t => ?_
      by_cases ht : t = .symbol .closeParen
      · exact ⟨_, hC.advance.bind fun _ => pure [], fun s hs => hclose s (hs.trans ht)⟩
      · refine ⟨_, ?_, fun s hs => Reader.arguments_of_ne (hs ▸ ht)⟩
        exact hchain.bind fun first => (separator hC).bind fun _ => ih.bind fun rest => pure _

theorem callArguments {room : Nat}
    (hchain : C.Respects ((Reader.levels room).chain loosest)) :
    C.Respects (Reader.callArguments (Reader.levels room)) := by
  apply of_eq
  · intro s₁ s₂ hs
    -- The bounds of the two runs differ, and one that serves both takes their place.
    refine ⟨_, _, arguments hC hchain (s₁.cursor.ahead ++ s₂.cursor.ahead), ?_, ?_⟩ <;>
      exact Reader.arguments_eq_of_length_le (Nat.le_refl _) (by rw [List.length_append]; omega)
  · intro s hs
    exact (arguments hC hchain s.cursor.ahead).beyond hs

theorem levels (room : Nat) : C.RespectsLevels (Reader.levels room) := by
  induction room with
  | zero =>
      have hbelow : C.RespectsBelow none := nofun
      exact ⟨chain hC hbelow, chainRest hC hbelow, callArguments hC (chain hC hbelow loosest)⟩
  | succ room ih =>
      have hbelow : C.RespectsBelow (some (Reader.levels room)) := by
        intro levels hlevels
        cases hlevels
        exact ih
      exact ⟨chain hC hbelow, chainRest hC hbelow, callArguments hC (chain hC hbelow loosest)⟩

theorem expression : C.Respects Reader.expression := by
  apply of_eq
  · intro s₁ s₂ hs
    refine ⟨_, _, (levels hC (maxDepth - s₁.depth)).chain loosest, rfl, ?_⟩
    rw [hC.depth_eq hs]
    rfl
  · intro s hs
    exact ((levels hC (maxDepth - s.depth)).chain loosest).beyond hs

/-! ## Readers of items and queries -/

theorem item : C.Respects Reader.item := by
  have hexpression := expression hC
  apply of_eq
  · intro s₁ s₂ hs
    have ht := hC.token_eq hs
    by_cases hdistinct : s₁.token = .word "distinct"
    · exact ⟨_, _, hC.advance.bind fun _ => pure _, Reader.item_of_distinct hdistinct,
        Reader.item_of_distinct (ht ▸ hdistinct)⟩
    by_cases hall : s₁.token = .word "all"
    · exact ⟨_, _, hC.advance.bind fun _ => pure _, Reader.item_of_all hall,
        Reader.item_of_all (ht ▸ hall)⟩
    by_cases hclause : ∃ word, s₁.token = .word word ∧ word ∈ clauseNames
    · obtain ⟨word, hword, hmem⟩ := hclause
      refine ⟨_, _, hexpression.bind fun e => asItem word e (hC.start hs), ?_, ?_⟩
      · exact Reader.item_of_clauseWord hword hmem
      · exact Reader.item_of_clauseWord (ht ▸ hword) hmem
    · have hplain : ∀ word, s₁.token = .word word → word ∉ clauseNames :=
        fun word hword hmem => hclause ⟨word, hword, hmem⟩
      exact ⟨_, _, hexpression, Reader.item_of_expression hdistinct hall hplain,
        Reader.item_of_expression (ht ▸ hdistinct) (ht ▸ hall) (ht ▸ hplain)⟩
  · intro s hs
    by_cases hdistinct : s.token = .word "distinct"
    · rw [Reader.item_of_distinct hdistinct]
      exact (hC.advance.bind fun _ => pure _).beyond hs
    by_cases hall : s.token = .word "all"
    · rw [Reader.item_of_all hall]
      exact (hC.advance.bind fun _ => pure _).beyond hs
    by_cases hclause : ∃ word, s.token = .word word ∧ word ∈ clauseNames
    · obtain ⟨word, hword, hmem⟩ := hclause
      rw [Reader.item_of_clauseWord hword hmem]
      exact (hexpression.beyond hs).bind fun e _ _ hs₁ => left_asItem hs₁ word s.start e
    · rw [Reader.item_of_expression hdistinct hall
        fun word hword hmem => hclause ⟨word, hword, hmem⟩]
      exact hexpression.beyond hs

theorem possibleItem : C.Respects Reader.possibleItem := by
  refine of_token hC fun t => ?_
  by_cases hempty : t = .symbol .closeBracket ∨ t = .symbol .comma
  · exact ⟨_, pure [], fun s hs => Reader.possibleItem_of_empty (hs ▸ hempty)⟩
  · rw [not_or] at hempty
    refine ⟨_, (item hC).bind fun d => pure [d], fun s hs => ?_⟩
    exact Reader.possibleItem_of_ne (hs ▸ hempty.1) (hs ▸ hempty.2)

theorem items (left : List Char) : C.Respects (Reader.items left) := by
  induction left with
  | nil =>
      rw [Reader.items_eq]
      refine (possibleItem hC).bind fun here => of_token hC fun t => ?_
      by_cases ht : t = .symbol .comma
      · exact ⟨_, fail hC _, fun s hs => Reader.itemsRest_nil (hs.trans ht)⟩
      · exact ⟨_, pure here, fun s hs => Reader.itemsRest_of_ne (hs ▸ ht)⟩
  | cons c left ih =>
      rw [Reader.items_eq]
      refine (possibleItem hC).bind fun here => of_token hC fun t => ?_
      by_cases ht : t = .symbol .comma
      · refine ⟨_, ?_, fun s hs => Reader.itemsRest_cons (hs.trans ht)⟩
        exact hC.advance.bind fun _ => ih.bind fun rest => pure _
      · exact ⟨_, pure here, fun s hs => Reader.itemsRest_of_ne (hs ▸ ht)⟩

theorem expectWord : C.Respects Reader.expectWord := by
  refine of_token hC fun t => ?_
  cases t with
  | word name =>
      exact ⟨_, hC.take.bind fun _ => pure name, fun s hs => Reader.expectWord_of_word hs⟩
  | literal | symbol | endOfText =>
      refine ⟨_, fail hC .identifier, fun s hs => ?_⟩
      rw [Reader.expectWord, Reader.get_bind, hs]

theorem query : C.Respects Reader.query := by
  have hitems (table : String) (left : List Char) :=
    (expect hC (.symbol .openBracket)).bind fun _ => (items hC left).bind fun ds =>
      (expect hC (.symbol .closeBracket)).bind fun _ => (expect hC .endOfText).bind
        fun _ => pure ((Query.new table).appendAll ds)
  refine (expectWord hC).bind fun table => of_eq ?_ ?_
  · intro s₁ s₂ hs
    refine ⟨_, _, hitems table (s₁.cursor.ahead ++ s₂.cursor.ahead), ?_, ?_⟩ <;>
    · rw [Reader.get_bind]
      refine Reader.bind_congr_of_ok fun _ s₃ hopen => Reader.bind_of_eq ?_
      have hle := Reader.remaining_le_of_advance (Reader.expect_eq_ok hopen).2
      exact Reader.items_eq_of_remaining_le hle (by rw [List.length_append]; omega)
  · intro s hs
    rw [Reader.get_bind]
    exact (hitems table s.cursor.ahead).beyond hs

theorem directive : C.Respects Reader.directive :=
  (item hC).bind fun d => (expect hC .endOfText).bind fun _ => pure d

end

end Compares

end Comparison

end QueryNotation
