import QueryNotation.Proofs.TokenPieces
import QueryNotation.Proofs.TreeSpelling

/-!
# The tokens that texts have

A word token is a word without a meaning of its own, and a numeral has no
sign. The trees that the grammar gives to the tokens of a text inherit
this.
-/

namespace QueryNotation

open Text Number BinaryOperator

/-- The value needs no sign in front of it. -/
def Value.IsUnsigned : Value → Prop
  | integer n => 0 ≤ n.toInt
  | float x => ∃ rank, x = .ofRank false rank
  | decimal d => 0 ≤ d.mantissa
  | string _ | boolean _ => True

/-- The tokens that can be read from a text. -/
def Token.IsLexed : Token → Prop
  | literal value => value.IsUnsigned
  | word name => IsWord name ∧ name ∉ ["true", "false", "and", "or"]
  | symbol _ | endOfText => True

theorem isUnsigned_ofNumeral (whole fraction : List Char) :
    (Value.ofNumeral whole fraction).IsUnsigned := by
  unfold Value.ofNumeral
  dsimp only
  split
  next h =>
    rw [Bool.and_eq_true, decide_eq_true_iff] at h
    change 0 ≤ (Int64.ofNat _).toInt
    rw [Int64.toInt_ofNat_of_lt h.2]
    exact Int.natCast_nonneg _
  next =>
    split
    next => exact ⟨_, rfl⟩
    next =>
      split
      next d hd =>
        unfold Decimal.ofParts? at hd
        split at hd
        next =>
          cases hd
          exact Int.natCast_nonneg _
        next => cases hd
      next => exact ⟨_, rfl⟩

theorem isLexed_ofWord {name : String} (h : IsWord name) : (Token.ofWord name).IsLexed := by
  unfold Token.ofWord
  split
  next => trivial
  next => trivial
  next => trivial
  next => trivial
  next hand hor htrue hfalse => exact ⟨h, by simp_all⟩

theorem Scan.Takes.isLexed {t : Token} {slice rest : List Char} (h : Takes t slice rest) :
    t.IsLexed := by
  cases h with
  | symbol hs hrest => trivial
  | string hquote hbody => trivial
  | word hname hrest => exact isLexed_ofWord hname
  | numeral hne hwhole hdigits hrest hpoint => exact isUnsigned_ofNumeral _ _

theorem Lexer.isLexed_of_next {s stop : Cursor} {t : Token} (h : next s = .ok t stop) :
    t.IsLexed := by
  by_cases ht : t = .endOfText
  · subst ht
    trivial
  · obtain ⟨p, rfl, hp, -⟩ := Lexer.exists_piece h ht
    exact hp.takes.isLexed

theorem Lexes.isLexed {s : Cursor} {ts : List Token} (h : Lexes s ts) : ∀ t ∈ ts, t.IsLexed := by
  induction h with
  | done h => simp
  | cons h ht hs ih => exact List.forall_mem_cons.2 ⟨Lexer.isLexed_of_next h, ih⟩

theorem HasTokens.isLexed {text : String} {ts : List Token} (h : HasTokens text ts) :
    ∀ t ∈ ts, t.IsLexed :=
  (hasTokens_iff_lexes.1 h).isLexed

/-- A name is read as itself exactly if it is a word without a meaning of
its own. -/
theorem hasTokens_word_iff {name : String} :
    HasTokens name [.word name] ↔ IsWord name ∧ name ∉ ["true", "false", "and", "or"] := by
  constructor
  · intro h
    exact h.isLexed (.word name) (by simp)
  · rintro ⟨hword, hname⟩
    have hspells := spells_word hword
    rw [Token.ofWord_of_notMem hname] at hspells
    exact hspells.hasTokens delimits_nil

/-! ## Trees of such tokens -/

theorem CommaJoined.subset {parts : List (List Token × Directive)} {ts : List Token}
    (h : CommaJoined parts ts) : ∀ p ∈ parts, p.1 ⊆ ts := by
  induction h with
  | nil => simp
  | last p => simp
  | cons p h ih =>
      rw [List.forall_mem_cons]
      refine ⟨List.subset_append_left _ _, ?_⟩
      intro q hq
      exact List.Subset.trans (ih q hq)
        (List.Subset.trans (List.subset_cons_self _ _) (List.subset_append_right _ _))

/-- The names of a tree are the words of its tokens, and its constants are
the literals. -/
theorem Derives.worded {property : Value → Prop} {level : Nat} {ts : List Token} {d : Directive}
    (h : Derives level ts d) (hlexed : ∀ t ∈ ts, t.IsLexed)
    (hproperty : ∀ v, Token.literal v ∈ ts → property v) : d.Worded property := by
  induction h with
  | literal value => exact .constant (hproperty value (by simp))
  | column name =>
      obtain ⟨hword, hname⟩ := hlexed (.word name) (by simp)
      exact .column hword (by simp_all)
  | andColumn => exact .column (isWord_of_all "and" (by decide)) (by decide)
  | orColumn => exact .column (isWord_of_all "or" (by decide)) (by decide)
  | @call ts name parts hjoined hparts ih =>
      obtain ⟨hword, hname⟩ := hlexed (.word name) (by simp)
      refine .call hword hname ?_
      intro d hd
      obtain ⟨p, hp, rfl⟩ := List.mem_map.1 hd
      have hsub := hjoined.subset p hp
      exact ih p hp (fun t ht => hlexed t (by simp [hsub ht])) fun v hv => hproperty v (by simp [hsub hv])
  | group h ih =>
      exact .group (ih (fun t ht => hlexed t (by simp [ht])) fun v hv => hproperty v (by simp [hv]))
  | unary hop h ih =>
      exact .unary _ (ih (fun t ht => hlexed t (by simp [ht])) fun v hv => hproperty v (by simp [hv]))
  | lift h ih => exact ih hlexed hproperty
  | binary ha hop hb iha ihb =>
      exact .binary _
        (iha (fun t ht => hlexed t (by simp [ht])) fun v hv => hproperty v (by simp [hv]))
        (ihb (fun t ht => hlexed t (by simp [ht])) fun v hv => hproperty v (by simp [hv]))

theorem Derives.fits {level : Nat} {ts : List Token} {d : Directive} (h : Derives level ts d) :
    Fits level d := by
  induction h with
  | literal value => exact .constant value
  | column name => exact .column name
  | andColumn => exact .column _
  | orColumn => exact .column _
  | call name parts hjoined hparts ih =>
      refine .call name ?_
      intro d hd
      obtain ⟨p, hp, rfl⟩ := List.mem_map.1 hd
      exact ih p hp
  | group h ih => exact .group ih
  | unary hop h ih => exact .unary _ ih
  | lift h ih => exact ih.mono (Nat.le_succ _)
  | @binary level t op ts us a b ha hop hb iha ihb =>
      have hlevel := (atLevel?_eq_some_iff.1 hop).2
      exact .binary (Nat.le_of_eq hlevel) (hlevel ▸ iha) (by rwa [hlevel, Nat.add_sub_cancel])

end QueryNotation
