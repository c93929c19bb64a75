import QueryNotation.Proofs.Acceptance
import QueryNotation.Proofs.Normalization

/-!
# Reading relational text

Relational text is not read by any program, but it can be turned back into
notation. Column names stand between quotes, so the words outside of them
are numerals, calls, and the words for operators. The word `not` is
printed without a space, and runs into the name of a call behind it and
into nothing else. So relational text tells expressions apart whose
operators `!` are taken for parts of the names of calls.
-/

namespace QueryNotation

open BinaryOperator Number Text

/-! ## From relational text to notation -/

/-- The relational text of so many operators `!`. -/
def nots (n : Nat) : List Char := (List.replicate n "not".toList).flatten

/-- Their notation. -/
def bangs (n : Nat) : List Char := List.replicate n '!'

theorem nots_succ (n : Nat) : nots (n + 1) = "not".toList ++ nots n := by
  rw [nots, List.replicate_succ, List.flatten_cons]
  rfl

theorem nots_succ' (n : Nat) : nots (n + 1) = nots n ++ "not".toList := by
  rw [nots, List.replicate_succ', List.flatten_concat]
  rfl

theorem nots_ne_bangs {n : Nat} (hn : n ≠ 0) (text : List Char) :
    nots n ++ text ≠ bangs n ++ text := by
  obtain ⟨k, rfl⟩ := Nat.exists_eq_succ_of_ne_zero hn
  rw [nots_succ, bangs, List.replicate_succ]
  simp

theorem continuesWord_of_mem_nots {n : Nat} {c : Char} (h : c ∈ nots n) :
    continuesWord c = true := by
  obtain ⟨word, hword, hc⟩ := List.mem_flatten.1 h
  rw [(List.mem_replicate.1 hword).2] at hc
  have hall : ∀ c ∈ "not".toList, continuesWord c = true :=
    List.all_eq_true.1 (by decide)
  exact hall c hc

/-- Puts an operator `!` for each `not` that a word starts with. -/
def unnot : List Char → List Char
  | 'n' :: 'o' :: 't' :: rest => '!' :: unnot rest
  | text => text

theorem unnot_nots {word : List Char} (h : ¬ "not".toList <+: word) (n : Nat) :
    unnot (nots n ++ word) = bangs n ++ word := by
  induction n with
  | zero =>
      change unnot word = word
      unfold unnot
      split
      next rest => exact (h ⟨rest, rfl⟩).elim
      next => rfl
  | succ n ih =>
      have hstep : unnot ("not".toList ++ (nots n ++ word)) = '!' :: unnot (nots n ++ word) := rfl
      rw [nots_succ, List.append_assoc, hstep, ih]
      rfl

/-- The notation of a word that is not the name of a call. -/
def keyword (word : List Char) : List Char :=
  if word = "AND".toList then "and".toList
  else if word = "OR".toList then "or".toList
  else unnot word

/-- Turns relational text back into notation, with a given way to treat the
words in front of parentheses. -/
def recast (calls : List Char → List Char) : List Char → List Char
  | [] => []
  | c :: rest =>
    if c = '"' then
      rest.takeWhile (· != '"') ++ recast calls ((rest.dropWhile (· != '"')).drop 1)
    else if continuesWord c then
      let word := c :: rest.takeWhile continuesWord
      let after := rest.dropWhile continuesWord
      (if after.head? = some '(' then calls word else keyword word) ++ recast calls after
    else c :: recast calls rest
termination_by text => text.length
decreasing_by
  · rw [List.length_drop, List.length_cons]
    have hle := (List.dropWhile_suffix (l := rest) (· != '"')).length_le
    omega
  · rw [List.length_cons]
    exact Nat.lt_succ_of_le (List.dropWhile_suffix _).length_le
  · exact Nat.lt_succ_self _

/-- A word cannot go on into the text, and is not the name of a call. -/
def Parts (rest : List Char) : Prop :=
  ∀ c, rest.head? = some c → continuesWord c = false ∧ c ≠ '('

section

variable {calls : List Char → List Char} {word rest : List Char}

theorem recast_quoted (h : '"' ∉ word) :
    recast calls ('"' :: (word ++ '"' :: rest)) = word ++ recast calls rest := by
  have hword : ∀ c ∈ word, (c != '"') = true := by
    intro c hc
    rw [bne_iff_ne]
    rintro rfl
    exact h hc
  have hquote : ∀ c, ('"' :: rest).head? = some c → (c != '"') = false := by simp
  rw [recast, if_pos rfl, takeWhile_append_of_stop hword hquote,
    dropWhile_append_of_stop hword hquote]
  rfl

theorem recast_word (hne : word ≠ []) (hword : ∀ c ∈ word, continuesWord c = true)
    (hrest : ∀ c, rest.head? = some c → continuesWord c = false) : recast calls (word ++ rest) =
      (if rest.head? = some '(' then calls word else keyword word) ++ recast calls rest := by
  obtain ⟨c, text, rfl⟩ := List.exists_cons_of_ne_nil hne
  obtain ⟨hc, htext⟩ := List.forall_mem_cons.1 hword
  have hquote : c ≠ '"' := by
    rintro rfl
    exact absurd hc (by decide)
  rw [List.cons_append, recast, if_neg hquote, if_pos hc]
  simp only [takeWhile_append_of_stop htext hrest, dropWhile_append_of_stop htext hrest]

theorem recast_mark {c : Char} (hc : continuesWord c = false) (hquote : c ≠ '"') :
    recast calls (c :: rest) = c :: recast calls rest := by
  rw [recast, if_neg hquote, if_neg (by simp [hc])]

/-- A word that stands for itself, behind operators. -/
theorem recast_nots_word (hword : ∀ c ∈ word, continuesWord c = true)
    (hnot : ¬ "not".toList <+: word) (hkeyword : word ∉ ["AND".toList, "OR".toList])
    (hrest : Parts rest) (n : Nat) :
    recast calls (nots n ++ word ++ rest) = bangs n ++ word ++ recast calls rest := by
  by_cases hempty : nots n ++ word = []
  · obtain ⟨hn, rfl⟩ := List.append_eq_nil_iff.1 hempty
    cases n with
    | zero => rfl
    | succ n =>
        rw [nots_succ] at hn
        cases hn
  · have hall : ∀ c ∈ nots n ++ word, continuesWord c = true :=
      List.forall_mem_append.2 ⟨fun c => continuesWord_of_mem_nots, hword⟩
    have hstop : rest.head? ≠ some '(' := fun h => (hrest _ h).2 rfl
    have hne : nots n ++ word ∉ ["AND".toList, "OR".toList] := by
      cases n with
      | zero => exact hkeyword
      | succ n =>
          rw [nots_succ]
          simp
    simp only [List.mem_cons, List.not_mem_nil, or_false, not_or] at hne
    rw [recast_word hempty hall fun c hc => (hrest c hc).1, if_neg hstop, keyword, if_neg hne.1,
      if_neg hne.2, unnot_nots hnot]

theorem recast_nots (hrest : Parts rest) (n : Nat) :
    recast calls (nots n ++ rest) = bangs n ++ recast calls rest := by
  have hword : ∀ c ∈ ([] : List Char), continuesWord c = true := by simp
  simpa using recast_nots_word hword (by decide) (by decide) hrest n

theorem parts_cons {c : Char} (hc : continuesWord c = false ∧ c ≠ '(') (rest : List Char) :
    Parts (c :: rest) := by
  intro d hd
  cases hd
  exact hc

end

/-! ## Trees that are turned back -/

/-- The names of the calls in the text of a tree behind operators `!` are
treated as the notation has them. -/
inductive Restored (calls : List Char → List Char) : Nat → Directive → Prop where
  | column (n : Nat) (name : String) : Restored calls n (.column name)
  | constant (n : Nat) (value : Value) : Restored calls n (.constant value)
  | call {n : Nat} {name : String} {arguments : List Directive}
      (hname : calls (nots n ++ name.toList) = bangs n ++ name.toList)
      (h : ∀ d ∈ arguments, Restored calls 0 d) : Restored calls n (.call name arguments)
  | group {n : Nat} {d : Directive} (hempty : n = 0 ∨ calls (nots n) = bangs n)
      (h : Restored calls 0 d) : Restored calls n (.group d)
  | not {n : Nat} {d : Directive} (h : Restored calls (n + 1) d) :
      Restored calls n (.unary .not d)
  | sign {n : Nat} {op : UnaryOperator} {d : Directive} (hop : op ≠ .not)
      (h : Restored calls 0 d) : Restored calls n (.unary op d)
  | binary {n : Nat} (op : BinaryOperator) {a b : Directive} (ha : Restored calls n a)
      (hb : Restored calls 0 b) : Restored calls n (.binary op a b)

section

variable {calls : List Char → List Char} {rest : List Char} {n : Nat} {d : Directive}

/-- The character is in no word and no quotes. -/
def isMark (c : Char) : Bool := !continuesWord c && c != '"'

theorem recast_marks (marks : List Char) (h : marks.all isMark = true) (rest : List Char) :
    recast calls (marks ++ rest) = marks ++ recast calls rest := by
  induction marks with
  | nil => rfl
  | cons c marks ih =>
      rw [List.all_cons, Bool.and_eq_true, isMark, Bool.and_eq_true, Bool.not_eq_true',
        bne_iff_ne] at h
      rw [List.cons_append, recast_mark h.1.1 h.1.2, ih h.2, List.cons_append]

/-- A sign is the same mark in both languages. -/
theorem marks_of_sign {op : UnaryOperator} (hop : op ≠ .not) :
    op.symbol .relational = op.symbol .compact ∧
      (op.symbol .relational).toList.all isMark = true ∧
        ∀ rest, Parts ((op.symbol .relational).toList ++ rest) := by
  cases op with
  | not => exact (hop rfl).elim
  | positive | negative =>
      exact ⟨rfl, by decide, fun rest => parts_cons (by decide) rest⟩

theorem recast_spaced (word : List Char) (hne : word ≠ [])
    (hword : word.all continuesWord = true) (rest : List Char) :
    recast calls (' ' :: (word ++ ' ' :: rest)) =
      ' ' :: (keyword word ++ ' ' :: recast calls rest) := by
  have hspace : continuesWord ' ' = false := by decide
  have hstop : ∀ c, (' ' :: rest).head? = some c → continuesWord c = false := by
    intro c hc
    cases hc
    exact hspace
  rw [recast_mark hspace (by decide), recast_word hne (List.all_eq_true.1 hword) hstop,
    if_neg (by simp), recast_mark hspace (by decide)]

theorem recast_between (op : BinaryOperator) (rest : List Char) :
    recast calls ((op.symbol .relational).toList ++ rest) =
      (op.symbol .compact).toList ++ recast calls rest := by
  cases op with
  | and => exact recast_spaced "AND".toList (by decide) (by decide) rest
  | or => exact recast_spaced "OR".toList (by decide) (by decide) rest
  | _ => exact recast_marks _ (by decide) rest

theorem parts_between (op : BinaryOperator) (rest : List Char) :
    Parts ((op.symbol .relational).toList ++ rest) := by
  cases op <;> exact parts_cons (by decide) _

theorem recast_digits {digits : List Char} (h : ∀ c ∈ digits, c.isDigit = true)
    (hrest : Parts rest) (n : Nat) :
    recast calls (nots n ++ digits ++ rest) = bangs n ++ digits ++ recast calls rest := by
  refine recast_nots_word (fun c hc => continuesWord_of_isDigit (h c hc)) ?_ ?_ hrest n
  · intro hnot
    exact absurd (h 'n' (hnot.subset (by simp))) (by decide)
  · intro hkeyword
    simp only [List.mem_cons, List.not_mem_nil, or_false] at hkeyword
    rcases hkeyword with rfl | rfl
    · exact absurd (h 'A' (by simp)) (by decide)
    · exact absurd (h 'O' (by simp)) (by decide)

theorem recast_fixedPoint (digits places : Nat) (hrest : Parts rest) (n : Nat) :
    recast calls (nots n ++ fixedPoint digits places ++ rest) =
      bangs n ++ fixedPoint digits places ++ recast calls rest := by
  have hwhole : ∀ c ∈ wholePart digits places, c.isDigit = true := fun c => isDigit_of_mem_toDigits
  have hfraction : ∀ c ∈ fractionPart digits places, c.isDigit = true :=
    fun c => isDigit_of_mem_fractionPart
  rw [← numeralText_parts, numeralText]
  split
  next =>
    rw [List.append_nil]
    exact recast_digits hwhole hrest n
  next =>
    have hpoint : continuesWord '.' = false := by decide
    have hstop : Parts ('.' :: (fractionPart digits places ++ rest)) :=
      parts_cons ⟨hpoint, by decide⟩ _
    have hplaces : recast calls (fractionPart digits places ++ rest) =
        fractionPart digits places ++ recast calls rest := recast_digits hfraction hrest 0
    have hall : recast calls (nots n ++ wholePart digits places ++
        '.' :: (fractionPart digits places ++ rest)) = _ := recast_digits hwhole hstop n
    rw [recast_mark hpoint (by decide), hplaces] at hall
    simpa using hall

theorem recast_text {v : Value} (hv : v.IsUnquoted ∧ v.IsUnsigned) (hrest : Parts rest) (n : Nat) :
    recast calls (nots n ++ v.text ++ rest) = bangs n ++ v.text ++ recast calls rest := by
  rcases hv.2.text_cases hv.1 with ⟨digits, places, htext⟩ | hword
  · rw [htext]
    exact recast_fixedPoint digits places hrest n
  · have hwords : ∀ text ∈ ["true".toList, "false".toList, "inf".toList],
        text.all continuesWord = true ∧ ¬ "not".toList <+: text ∧
          text ∉ ["AND".toList, "OR".toList] := by decide +kernel
    obtain ⟨hall, hnot, hkeyword⟩ := hwords _ hword
    exact recast_nots_word (List.all_eq_true.1 hall) hnot hkeyword hrest n

theorem recast_column {name : String} (h : IsWord name) (rest : List Char) (n : Nat) :
    recast calls (nots n ++ Directive.columnText name .relational ++ rest) =
      bangs n ++ name.toList ++ recast calls rest := by
  have hname : '"' ∉ name.toList := fun hmem => absurd (h.2 _ hmem) (by decide)
  have hstop : Parts ('"' :: (name.toList ++ '"' :: rest)) := parts_cons (by decide) _
  have hall : recast calls (nots n ++ '"' :: (name.toList ++ '"' :: rest)) = _ :=
    recast_nots hstop n
  rw [recast_quoted hname] at hall
  simpa [Directive.columnText] using hall

theorem recast_closeParen (rest : List Char) :
    recast calls (')' :: rest) = ')' :: recast calls rest :=
  recast_mark (by decide) (by decide)

/-- A word in front of a parenthesis, if there is one. -/
theorem recast_called {word retold : List Char} (hword : ∀ c ∈ word, continuesWord c = true)
    (hcalls : word = [] ∧ retold = [] ∨ calls word = retold ∧ word ≠ []) (rest : List Char) :
    recast calls (word ++ '(' :: rest) = retold ++ '(' :: recast calls rest := by
  have hopen : continuesWord '(' = false := by decide
  have hparen : recast calls ('(' :: rest) = '(' :: recast calls rest :=
    recast_mark hopen (by decide)
  rcases hcalls with ⟨rfl, rfl⟩ | ⟨hcalls, hne⟩
  · exact hparen
  · have hstop : ∀ c, ('(' :: rest).head? = some c → continuesWord c = false := by
      intro c hc
      cases hc
      exact hopen
    rw [recast_word hne hword hstop, if_pos List.head?_cons, hcalls, hparen]

theorem recast_joined {ds : List Directive} (hrest : Parts rest)
    (h : ∀ d ∈ ds, ∀ {rest}, Parts rest →
      recast calls (d.render .relational ++ rest) = d.render .compact ++ recast calls rest) :
    recast calls (", ".toList.intercalate (ds.map (Directive.render .relational)) ++ rest) =
      ", ".toList.intercalate (ds.map (Directive.render .compact)) ++ recast calls rest := by
  induction ds with
  | nil => rfl
  | cons d ds ih =>
      obtain ⟨hd, hds⟩ := List.forall_mem_cons.1 h
      cases ds with
      | nil => simpa using hd hrest
      | cons e ds =>
          have hcomma (rest : List Char) : Parts (", ".toList ++ rest) :=
            parts_cons (by decide) _
          simp only [List.map_cons, List.intercalate_cons_cons, List.append_assoc] at ih ⊢
          rw [hd (hcomma _), recast_marks ", ".toList (by decide), ih hds]

/-- Relational text is turned back into the notation. -/
theorem Restored.recast_render (h : Restored calls n d)
    (hworded : d.Worded fun v => v.IsUnquoted ∧ v.IsUnsigned) (hrest : Parts rest) :
    recast calls (nots n ++ d.render .relational ++ rest) =
      bangs n ++ d.render .compact ++ recast calls rest := by
  induction h generalizing rest with
  | column n name =>
      cases hworded with
      | column hword hname => exact recast_column hword rest n
  | constant n value =>
      cases hworded with
      | constant h => exact recast_text h hrest n
  | @call n name arguments hcalls h ih =>
      cases hworded with
      | call hword hname hworded =>
          have hclose : Parts (')' :: rest) := parts_cons (by decide) rest
          have harguments :=
            recast_joined hclose fun d hd rest hrest => ih d hd (hworded d hd) hrest
          have hall : ∀ c ∈ nots n ++ name.toList, continuesWord c = true :=
            List.forall_mem_append.2 ⟨fun c => continuesWord_of_mem_nots, hword.2⟩
          have hne : nots n ++ name.toList ≠ [] := by
            obtain ⟨c, text, htext, -⟩ := hword.opens
            simp [htext]
          have hcall := recast_called hall (.inr ⟨hcalls, hne⟩)
            (", ".toList.intercalate (arguments.map (Directive.render .relational)) ++ ')' :: rest)
          rw [harguments, recast_closeParen] at hcall
          simpa [Directive.render, Directive.renderAll_eq_map] using hcall
  | @group n d hempty h ih =>
      cases hworded with
      | group hworded =>
          have hclose : Parts (')' :: rest) := parts_cons (by decide) rest
          have hinner : recast calls (d.render .relational ++ ')' :: rest) = _ := ih hworded hclose
          have hcalls : nots n = [] ∧ bangs n = [] ∨ calls (nots n) = bangs n ∧ nots n ≠ [] := by
            cases n with
            | zero => exact .inl ⟨rfl, rfl⟩
            | succ n =>
                refine .inr ⟨hempty.resolve_left (Nat.succ_ne_zero n), ?_⟩
                rw [nots_succ]
                exact List.cons_ne_nil _ _
          have hgroup := recast_called (fun c => continuesWord_of_mem_nots) hcalls
            (d.render .relational ++ ')' :: rest)
          rw [hinner, recast_closeParen] at hgroup
          simpa [Directive.render, bangs] using hgroup
  | not h ih =>
      cases hworded with
      | unary _ h =>
          have hall := ih h hrest
          rw [nots_succ', bangs, List.replicate_succ'] at hall
          simpa [Directive.render, UnaryOperator.symbol, bangs] using hall
  | @sign n op d hop h ih =>
      cases hworded with
      | unary _ hworded =>
          have hinner : recast calls (d.render .relational ++ rest) = _ := ih hworded hrest
          obtain ⟨hsame, hmarks, hstop⟩ := marks_of_sign hop
          have hall : recast calls (nots n ++ ((op.symbol .relational).toList ++
              (d.render .relational ++ rest))) = _ := recast_nots (hstop _) n
          rw [recast_marks _ hmarks, hinner, hsame] at hall
          simpa [Directive.render, bangs, hsame] using hall
  | @binary n op a b ha hb iha ihb =>
      cases hworded with
      | binary _ ha hb =>
          have hright : recast calls (b.render .relational ++ rest) = _ := ihb hb hrest
          have hleft := iha ha (parts_between op (b.render .relational ++ rest))
          rw [recast_between, hright] at hleft
          simpa [Directive.render, bangs] using hleft

end

/-! ## Operators as parts of names -/

namespace Directive

/-- Puts an operator `!` in front of a tree, as a part of the name if there
is a call or a parenthesis. -/
def absorbNot : Directive → Directive
  | call name arguments => call ("not" ++ name) arguments
  | group inner => call "not" [inner]
  | binary op left right => binary op left.absorbNot right
  | d => unary .not d

mutual

/-- The tree with every operator `!` in front of a call or a parenthesis
taken for a part of a name. -/
def absorb : Directive → Directive
  | call name arguments => call name (absorbAll arguments)
  | group inner => group inner.absorb
  | unary .not operand => operand.absorb.absorbNot
  | unary op operand => unary op operand.absorb
  | binary op left right => binary op left.absorb right.absorb
  | clause c inner => clause c inner.absorb
  | order key direction => order key.absorb direction
  | column name => column name
  | constant value => constant value
  | distinct => distinct
  | all => all

def absorbAll : List Directive → List Directive
  | [] => []
  | d :: rest => d.absorb :: absorbAll rest

end

theorem absorbAll_eq_map (ds : List Directive) : absorbAll ds = ds.map absorb := by
  induction ds with
  | nil => rw [absorbAll, List.map_nil]
  | cons d ds ih => rw [absorbAll, ih, List.map_cons]

variable {property : Value → Prop} {d : Directive}

theorem IsExpression.render_absorbNot (h : d.IsExpression) :
    d.absorbNot.render .relational = "not".toList ++ d.render .relational := by
  induction h with
  | column name => rfl
  | constant value => rfl
  | call name h ih => simp [absorbNot, render]
  | group h ih => simp [absorbNot, render, renderAll]
  | unary op h ih => rfl
  | binary op ha hb iha ihb => simp [absorbNot, render, iha]

theorem isWord_not (name : String) (h : ∀ c ∈ name.toList, continuesWord c = true) :
    IsWord ("not" ++ name) ∧ "not" ++ name ∉ ["true", "false", "and", "or"] := by
  have htext : ("not" ++ name).toList = 'n' :: 'o' :: 't' :: name.toList := by simp
  have hnot : ∀ c ∈ "not".toList, continuesWord c = true :=
    List.all_eq_true.1 (by decide)
  refine ⟨⟨⟨'n', by rw [htext, List.head?_cons], by decide⟩, ?_⟩, ?_⟩
  · rw [String.toList_append]
    exact List.forall_mem_append.2 ⟨hnot, h⟩
  · have hhead : ∀ keyword ∈ ["true", "false", "and", "or"], keyword.toList.head? ≠ some 'n' := by
      decide
    intro hkeyword
    apply hhead _ hkeyword
    rw [htext, List.head?_cons]

theorem Worded.absorbNot (h : d.Worded property) : d.absorbNot.Worded property := by
  induction h with
  | column hword hname => exact .unary .not (.column hword hname)
  | constant h => exact .unary .not (.constant h)
  | call hword hname h ih =>
      obtain ⟨hword, hname⟩ := isWord_not _ hword.2
      exact .call hword hname h
  | group h ih =>
      have hnot := isWord_not "" (by simp)
      exact .call hnot.1 hnot.2 (by simpa using h)
  | unary op h ih => exact .unary .not (.unary op h)
  | binary op ha hb iha ihb => exact .binary op iha hb

theorem Worded.absorb (h : d.Worded property) : d.absorb.Worded property := by
  induction h with
  | column hword hname => exact .column hword hname
  | constant h => exact .constant h
  | call hword hname h ih =>
      rw [Directive.absorb, absorbAll_eq_map]
      exact .call hword hname (by simpa using ih)
  | group h ih => exact .group ih
  | unary op h ih =>
      cases op with
      | not => exact ih.absorbNot
      | positive => exact .unary .positive ih
      | negative => exact .unary .negative ih
  | binary op ha hb iha ihb => exact .binary op iha ihb

theorem Worded.render_absorb (h : d.Worded property) :
    d.absorb.render .relational = d.render .relational := by
  induction h with
  | column hword hname => rfl
  | constant h => rfl
  | call hword hname h ih =>
      have htexts : (List.map Directive.absorb _).map (render .relational) = _ :=
        List.map_map.trans (List.map_congr_left ih)
      rw [Directive.absorb, absorbAll_eq_map, render, render, renderAll_eq_map, renderAll_eq_map,
        htexts]
  | group h ih => rw [Directive.absorb, render, render, ih]
  | unary op h ih =>
      cases op with
      | not =>
          rw [Directive.absorb, h.absorb.isExpression.render_absorbNot, ih]
          rfl
      | positive | negative => simp [Directive.absorb, render, ih]
  | binary op ha hb iha ihb => rw [Directive.absorb, render, render, iha, ihb]

end Directive

namespace Restored

variable {n : Nat} {d : Directive}

/-- Behind an operator there is no call and no parenthesis left, and any
number of operators may be put in front. -/
theorem raise (h : Restored id n d) (hn : n ≠ 0) (m : Nat) : Restored id m d := by
  induction h generalizing m with
  | column n name => exact .column m name
  | constant n value => exact .constant m value
  | call hname h ih => exact (nots_ne_bangs hn _ hname).elim
  | group hempty h ih =>
      have hgroup := hempty.resolve_left hn
      exact (nots_ne_bangs hn [] (by simpa using hgroup)).elim
  | not h ih => exact .not (ih (Nat.succ_ne_zero _) (m + 1))
  | sign hop h ih => exact .sign hop h
  | binary op ha hb iha ihb => exact .binary op (iha hn m) hb

theorem absorbNot (h : Restored id 0 d) : Restored id 0 d.absorbNot := by
  generalize hn : 0 = n at h
  induction h with
  | column n name => exact .not (.column _ name)
  | constant n value => exact .not (.constant _ value)
  | call hname h ih =>
      subst hn
      exact .call rfl h
  | group hempty h ih =>
      subst hn
      exact .call rfl (by simpa using h)
  | not h ih => exact .not (.not (h.raise (Nat.succ_ne_zero _) _))
  | sign hop h ih => exact .not (.sign hop h)
  | binary op ha hb iha ihb => exact .binary op (iha hn) hb

end Restored

theorem Directive.IsExpression.restored_absorb {d : Directive} (h : d.IsExpression) :
    Restored id 0 d.absorb := by
  induction h with
  | column name => exact .column 0 name
  | constant value => exact .constant 0 value
  | call name h ih =>
      rw [absorb, absorbAll_eq_map]
      exact .call rfl (by simpa using ih)
  | group h ih => exact .group (.inl rfl) ih
  | unary op h ih =>
      cases op with
      | not => exact ih.absorbNot
      | positive | negative => exact .sign (by decide) ih
  | binary op ha hb iha ihb => exact .binary op iha ihb

namespace Directive

mutual

/-- The names of the calls of a tree. -/
def callNames : Directive → List String
  | call name arguments => name :: callNamesAll arguments
  | group inner | unary _ inner | clause _ inner | order inner _ => inner.callNames
  | binary _ left right => left.callNames ++ right.callNames
  | column _ | constant _ | distinct | all => []

def callNamesAll : List Directive → List String
  | [] => []
  | d :: rest => d.callNames ++ callNamesAll rest

end

theorem callNamesAll_eq_flatMap (ds : List Directive) : callNamesAll ds = ds.flatMap callNames := by
  induction ds with
  | nil => rw [callNamesAll, List.flatMap_nil]
  | cons d ds ih => rw [callNamesAll, ih, List.flatMap_cons]

/-- Names that do not start with `not` are told from operators. -/
theorem IsExpression.restored_unnot {d : Directive} (h : d.IsExpression)
    (hnames : ∀ name ∈ d.callNames, ¬ "not".toList <+: name.toList) (n : Nat) :
    Restored unnot n d := by
  induction h generalizing n with
  | column name => exact .column n name
  | constant value => exact .constant n value
  | call name h ih =>
      rw [callNames, List.forall_mem_cons, callNamesAll_eq_flatMap] at hnames
      refine .call (unnot_nots hnames.1 n) fun d hd => ih d hd ?_ 0
      intro name hname
      exact hnames.2 name (List.mem_flatMap.2 ⟨d, hd, hname⟩)
  | group h ih =>
      rw [callNames] at hnames
      have hprefix : ¬ "not".toList <+: [] := by decide
      have hempty : unnot (nots n) = bangs n := by simpa using unnot_nots hprefix n
      exact .group (.inr hempty) (ih hnames 0)
  | unary op h ih =>
      rw [callNames] at hnames
      cases op with
      | not => exact .not (ih hnames (n + 1))
      | positive | negative => exact .sign (by decide) (ih hnames 0)
  | binary op ha hb iha ihb =>
      rw [callNames, List.forall_mem_append] at hnames
      exact .binary op (iha hnames.1 n) (ihb hnames.2 0)

/-! ## Trees with the same text -/

variable {d e : Directive}

/-- Two trees with the same notation are read as one tree. -/
theorem Worded.regroup_eq_of_compact (hd : d.Worded Value.IsUnquoted)
    (he : e.Worded Value.IsUnquoted) (h : d.render .compact = e.render .compact) :
    d.reread.regroup = e.reread.regroup := by
  have hspells {d : Directive} (hd : d.Worded Value.IsUnquoted) :
      HasTokens (String.ofList (d.render .compact)) d.reread.regroup.tokens := by
    refine Spells.hasTokens ?_ delimits_nil
    rw [String.toList_ofList, ← render_normal_compact hd]
    exact spells_render (isLegible_normal hd)
  have htext := hspells hd
  have htokens := htext.unique (h ▸ hspells he)
  have hderives := derives_tokens (fits_normal hd) (isLegible_normal hd)
  refine htext.expression_unique hderives ?_
  rw [htokens]
  exact derives_tokens (fits_normal he) (isLegible_normal he)

/-- The notation of a tree without infinities determines its text in each
language. -/
theorem Worded.render_eq_of_compact (hd : d.Worded Value.IsPlain) (he : e.Worded Value.IsPlain)
    (h : d.render .compact = e.render .compact) (language : Language) :
    d.render language = e.render language := by
  have hsame := regroup_eq_of_compact (hd.mono fun _ hv => hv.1) (he.mono fun _ hv => hv.1) h
  have hrender {d : Directive} (hd : d.Worded Value.IsPlain) :
      d.reread.regroup.render language = d.render language :=
    render_normal hd (fun _ hv => hv.1) fun _ hv => QueryNotation.render_reread language hv.2
  rw [← hrender hd, hsame, hrender he]

end Directive

theorem Restored.compact_eq {calls : List Char → List Char} {d e : Directive}
    (hd : d.Worded fun v => v.IsUnquoted ∧ v.IsUnsigned)
    (he : e.Worded fun v => v.IsUnquoted ∧ v.IsUnsigned) (hcallsd : Restored calls 0 d)
    (hcallse : Restored calls 0 e) (h : d.render .relational = e.render .relational) :
    d.render .compact = e.render .compact := by
  have hend : Parts [] := by simp [Parts]
  have hrecast := hcallsd.recast_render hd hend
  rw [h, hcallse.recast_render he hend] at hrecast
  simpa [recast, bangs] using hrecast.symm

/-- The text has no strings, and is accepted as an expression. -/
structure AcceptedExpression (text : String) (d : Directive) : Prop where
  parse_eq : Directive.parse text = .ok d
  expression : d.IsExpression
  stringless : ∃ ts, HasTokens text ts ∧ ∀ s, Token.literal (.string s) ∉ ts

theorem AcceptedExpression.isRead {text : String} {d : Directive} (h : AcceptedExpression text d) :
    d.IsRead := by
  obtain ⟨ts, htext, hstrings⟩ := h.stringless
  obtain ⟨us, n, husText, hitem, -⟩ := Directive.parse_eq_ok h.parse_eq
  obtain rfl := husText.unique htext
  have hexpression := h.expression
  cases hitem with
  | distinct | all => cases hexpression
  | expression hderives hdistinct hall hread =>
      cases hread with
      | clause | order | directed => cases hexpression
      | other => exact hderives.isRead htext.isLexed hstrings

/-- Expressions with the same relational text have the same notation, up to
operators `!` that are taken for parts of names. Without infinities there is
no other condition, and names that do not start with `not` leave no doubt. -/
theorem Directive.compact_eq_of_relational_eq {text₁ text₂ : String} {d₁ d₂ : Directive}
    (h₁ : AcceptedExpression text₁ d₁) (h₂ : AcceptedExpression text₂ d₂) :
    (d₁.text .relational = d₂.text .relational →
      d₁.absorb.text .compact = d₂.absorb.text .compact) ∧
    (d₁.infinities = 0 → d₂.infinities = 0 → d₁.absorb.text .compact = d₂.absorb.text .compact →
      d₁.text .relational = d₂.text .relational) ∧
    ((∀ name ∈ d₁.callNames ++ d₂.callNames, ¬ "not".toList <+: name.toList) →
      d₁.text .relational = d₂.text .relational → d₁.text .compact = d₂.text .compact) := by
  have hworded₁ := h₁.isRead.unquoted.and h₁.isRead.unsigned
  have hworded₂ := h₂.isRead.unquoted.and h₂.isRead.unsigned
  simp only [Directive.text, String.ofList_inj]
  refine ⟨?_, ?_, ?_⟩
  · intro h
    refine Restored.compact_eq hworded₁.absorb hworded₂.absorb h₁.expression.restored_absorb
      h₂.expression.restored_absorb ?_
    rw [hworded₁.render_absorb, hworded₂.render_absorb, h]
  · intro hfinite₁ hfinite₂ h
    have hplain₁ := (h₁.isRead.unquoted.isPlain hfinite₁).absorb
    have hplain₂ := (h₂.isRead.unquoted.isPlain hfinite₂).absorb
    have hsame := hplain₁.render_eq_of_compact hplain₂ h .relational
    rwa [hworded₁.render_absorb, hworded₂.render_absorb] at hsame
  · intro hnames h
    obtain ⟨hnames₁, hnames₂⟩ := List.forall_mem_append.1 hnames
    exact Restored.compact_eq hworded₁ hworded₂ (h₁.expression.restored_unnot hnames₁ 0)
      (h₂.expression.restored_unnot hnames₂ 0) h

theorem derives_called (name : String) : Derives 0
    [.word name, .symbol .openParen, .word "a", .symbol .closeParen] (.call name [.column "a"]) :=
  .call name [([.word "a"], .column "a")] (.last _)
    (by simpa using (Derives.column "a").mono (Nat.zero_le _))

theorem acceptedExpression_negatedCall :
    AcceptedExpression "!f(a)" (.unary .not (.call "f" [.column "a"])) := by
  have htext : HasTokens "!f(a)" [.symbol .exclamation, .word "f", .symbol .openParen, .word "a",
      .symbol .closeParen] :=
    hasTokens_iff_lexes.2 (lexes_of_atMost (n := 8) (by decide +kernel) (by decide +kernel))
  have hnot : UnaryOperator.ofToken? (.symbol .exclamation) = some .not := rfl
  have hderives := Derives.unary hnot (derives_called "f")
  have hitem := DerivesItem.expression (hderives.mono (Nat.zero_le _)) (by simp) (by simp)
    (.other id)
  refine ⟨(Directive.parse_of_derives htext hitem).1 (by decide), ?_, _, htext, by simp⟩
  exact .unary .not (.call "f" (by simpa using .column "a"))

theorem acceptedExpression_notCall : AcceptedExpression "notf(a)" (.call "notf" [.column "a"]) := by
  have htext : HasTokens "notf(a)"
      [.word "notf", .symbol .openParen, .word "a", .symbol .closeParen] :=
    hasTokens_iff_lexes.2 (lexes_of_atMost (n := 9) (by decide +kernel) (by decide +kernel))
  have hclause : ¬ (Directive.call "notf" [.column "a"]).IsClauseCall := by
    simp [Directive.IsClauseCall, clauseNames]
  have hitem := DerivesItem.expression ((derives_called "notf").mono (Nat.zero_le _)) (by simp)
    (by simp) (.other hclause)
  refine ⟨(Directive.parse_of_derives htext hitem).1 (by decide), ?_, _, htext, by simp⟩
  exact .call "notf" (by simpa using .column "a")

theorem negatedCall_absorbed :
    (AcceptedExpression "!f(a)" (.unary .not (.call "f" [.column "a"])) ∧
      AcceptedExpression "notf(a)" (.call "notf" [.column "a"])) ∧
    (Directive.unary .not (.call "f" [.column "a"])).text .relational =
      (Directive.call "notf" [.column "a"]).text .relational ∧
    (Directive.unary .not (.call "f" [.column "a"])).absorb.text .compact =
      (Directive.call "notf" [.column "a"]).absorb.text .compact := by
  have hsame := Directive.compact_eq_of_relational_eq acceptedExpression_negatedCall
    acceptedExpression_notCall
  have hrelational : (Directive.unary .not (.call "f" [.column "a"])).text .relational =
      (Directive.call "notf" [.column "a"]).text .relational := by decide +kernel
  exact ⟨⟨acceptedExpression_negatedCall, acceptedExpression_notCall⟩, hrelational,
    hsame.1 hrelational⟩

/-- Two expressions with different notations and the same relational text. -/
theorem negatedCall_merged : ¬ ∀ d₁ d₂, AcceptedExpression "!f(a)" d₁ →
    AcceptedExpression "notf(a)" d₂ → d₁.text .relational = d₂.text .relational →
      d₁.text .compact = d₂.text .compact := by
  intro h
  have hsame := h _ _ acceptedExpression_negatedCall acceptedExpression_notCall
  exact absurd (hsame (by decide +kernel)) (by decide +kernel)

end QueryNotation
