import QueryNotation.Proofs.AcceptedItems
import QueryNotation.Proofs.QueryAcceptance
import QueryNotation.Proofs.StatementParts

/-!
# Adjacent minus signs

Two minus signs side by side open a comment in a statement. Operators are
printed without spaces, so a statement can have them. They come from two
minus tokens side by side in a directive that the statement shows, and
from nothing else: constants that were read have no sign, and the texts
of a statement never end with one.
-/

namespace QueryNotation

open BinaryOperator Number Text

/-! ## Doubled elements -/

section

variable {α β : Type} {x : α} {y : β} {l r : List α}

/-- The element stands twice in a row. -/
def Doubled (x : α) (l : List α) : Prop := [x, x] <:+: l

theorem doubled_cons {a : α} : Doubled x (a :: l) ↔ (a = x ∧ l.head? = some x) ∨ Doubled x l := by
  have hhead : [x] <+: l ↔ l.head? = some x := by
    cases l with
    | nil => simp
    | cons b l => simp [List.cons_prefix_cons, eq_comm]
  rw [Doubled, List.infix_cons_iff, List.cons_prefix_cons, hhead, eq_comm (a := x)]
  rfl

theorem not_doubled_nil : ¬ Doubled x ([] : List α) := by simp [Doubled]

theorem head?_append_eq_some : (l ++ r).head? = some x ↔
    l.head? = some x ∨ (l = [] ∧ r.head? = some x) := by
  cases l <;> simp

theorem getLast?_append_eq_some : (l ++ r).getLast? = some x ↔
    r.getLast? = some x ∨ (r = [] ∧ l.getLast? = some x) := by
  rw [List.getLast?_append]
  cases h : r.getLast? with
  | none => simp [List.getLast?_eq_none_iff.1 h]
  | some b =>
      have hne : r ≠ [] := List.ne_nil_of_mem (List.mem_of_getLast? h)
      simp [hne]

theorem doubled_append : Doubled x (l ++ r) ↔
    Doubled x l ∨ Doubled x r ∨ (l.getLast? = some x ∧ r.head? = some x) := by
  induction l with
  | nil => simp [not_doubled_nil]
  | cons a l ih =>
      rw [List.cons_append, doubled_cons, ih, doubled_cons, head?_append_eq_some]
      cases l with
      | nil => grind [not_doubled_nil]
      | cons b l => grind

theorem not_doubled_of_notMem (h : x ∉ l) : ¬ Doubled x l :=
  fun hdoubled => h (hdoubled.subset (by simp))

/-- An element of one list stands where an element of another list stands,
as far as their neighbours and the ends are concerned. -/
structure Parallel (x : α) (y : β) (as : List α) (bs : List β) : Prop where
  empty : as = [] ↔ bs = []
  head : as.head? = some x ↔ bs.head? = some y
  last : as.getLast? = some x ↔ bs.getLast? = some y
  doubled : Doubled x as ↔ Doubled y bs

namespace Parallel

theorem nil : Parallel x y [] [] where
  empty := by simp
  head := by simp
  last := by simp
  doubled := by simp [Doubled]

theorem single : Parallel x y [x] [y] where
  empty := by simp
  head := by simp
  last := by simp
  doubled := by simp [doubled_cons, not_doubled_nil]

theorem of_notMem {as : List α} {bs : List β} (hempty : as = [] ↔ bs = []) (has : x ∉ as)
    (hbs : y ∉ bs) : Parallel x y as bs where
  empty := hempty
  head := iff_of_false (fun h => has (List.mem_of_head? h)) fun h => hbs (List.mem_of_head? h)
  last := iff_of_false (fun h => has (List.mem_of_getLast? h)) fun h => hbs (List.mem_of_getLast? h)
  doubled := iff_of_false (not_doubled_of_notMem has) (not_doubled_of_notMem hbs)

theorem refl (l : List α) : Parallel x x l l := ⟨.rfl, .rfl, .rfl, .rfl⟩

variable {as as' : List α} {bs bs' : List β}

theorem append (h : Parallel x y as bs) (h' : Parallel x y as' bs') :
    Parallel x y (as ++ as') (bs ++ bs') where
  empty := by rw [List.append_eq_nil_iff, List.append_eq_nil_iff, h.empty, h'.empty]
  head := by rw [head?_append_eq_some, head?_append_eq_some, h.head, h.empty, h'.head]
  last := by rw [getLast?_append_eq_some, getLast?_append_eq_some, h'.last, h'.empty, h.last]
  doubled := by rw [doubled_append, doubled_append, h.doubled, h'.doubled, h.last, h'.head]

/-- Another element at the end changes nothing, unless the element is there. -/
theorem concat {z : α} (h : Parallel x y as bs) (hne : bs ≠ []) (hlast : bs.getLast? ≠ some y)
    (hz : z ≠ x) : Parallel x y (as ++ [z]) bs where
  empty := iff_of_false (by simp) hne
  head := by
    rw [head?_append_eq_some, h.head, h.empty]
    simp [hne]
  last := iff_of_false (by simpa using hz) hlast
  doubled := by
    rw [doubled_append, ← h.doubled, h.last]
    have hsingle : ¬ Doubled x [z] := not_doubled_of_notMem (by simpa using hz.symm)
    simp [hlast, hsingle]

/-- Pieces between separators. -/
theorem intercalate {ι : Type} {separator : List α} {separator' : List β}
    (hseparator : Parallel x y separator separator') {pieces : List ι} {f : ι → List α}
    {g : ι → List β} (h : ∀ i ∈ pieces, Parallel x y (f i) (g i)) :
    Parallel x y (separator.intercalate (pieces.map f))
      (separator'.intercalate (pieces.map g)) := by
  induction pieces with
  | nil => exact .nil
  | cons i pieces ih =>
      obtain ⟨hi, hpieces⟩ := List.forall_mem_cons.1 h
      cases pieces with
      | nil => simpa using hi
      | cons j pieces =>
          simp only [List.map_cons, List.intercalate_cons_cons] at ih ⊢
          exact (hi.append hseparator).append (ih hpieces)

end Parallel

end

/-! ## Trees -/

/-- The minus signs of a text stand as the minus tokens do. -/
abbrev SameMinus (text : List Char) (ts : List Token) : Prop :=
  Parallel '-' (Token.symbol .minus) text ts

theorem minus_notMem_of_isWord {name : String} (h : IsWord name) : '-' ∉ name.toList :=
  fun hmem => absurd (h.2 _ hmem) (by decide)

theorem minus_notMem_text {v : Value} (h : v.IsUnsigned) (hunquoted : v.IsUnquoted) :
    '-' ∉ v.text := by
  rcases h.text_cases hunquoted with ⟨digits, places, htext⟩ | hword
  · rw [htext]
    intro hmem
    have hdigit := isDigit_or_point_of_mem_fixedPoint hmem
    simp at hdigit
  · have hwords : ∀ text ∈ ["true".toList, "false".toList, "inf".toList], '-' ∉ text := by decide
    exact hwords _ hword

theorem Token.ofWord_ne_minus (name : String) : ofWord name ≠ .symbol .minus := by
  unfold ofWord
  split <;> simp

theorem sameMinus_ofWord {name : String} {text : List Char} (hne : text ≠ []) (htext : '-' ∉ text) :
    SameMinus text [.ofWord name] := by
  refine .of_notMem (by simpa using hne) htext ?_
  rw [List.mem_singleton]
  exact (Token.ofWord_ne_minus name).symm

theorem sameMinus_before (op : UnaryOperator) (language : Language) :
    SameMinus (op.symbol language).toList [.symbol op.sign] := by
  cases op with
  | negative => cases language <;> exact .single
  | positive | not =>
      cases language <;> refine .of_notMem ?_ ?_ ?_ <;> decide

theorem sameMinus_between (op : BinaryOperator) (language : Language) :
    SameMinus (op.symbol language).toList [.symbol op.sign] := by
  cases op with
  | subtract => cases language <;> exact .single
  | _ => cases language <;> refine .of_notMem ?_ ?_ ?_ <;> decide

theorem sameMinus_separator : SameMinus ", ".toList [.symbol .comma] :=
  .of_notMem (by decide) (by decide) (by decide)

theorem sameMinus_openParen : SameMinus ['('] [.symbol .openParen] :=
  .of_notMem (by decide) (by decide) (by decide)

theorem sameMinus_closeParen : SameMinus [')'] [.symbol .closeParen] :=
  .of_notMem (by decide) (by decide) (by decide)

namespace Directive

variable {d : Directive}

theorem sameMinus_columnText {name : String} (h : IsWord name) (language : Language) :
    SameMinus (columnText name language) [.ofWord name] := by
  have hname := minus_notMem_of_isWord h
  obtain ⟨c, text, htext, -⟩ := h.opens
  cases language with
  | compact => exact sameMinus_ofWord (by simp [columnText, htext]) hname
  | relational => exact sameMinus_ofWord (by simp [columnText]) (by simpa [columnText] using hname)

/-- The minus signs in the text of a tree stand as the minus tokens of the
tree do. -/
theorem Worded.sameMinus (h : d.Worded fun v => v.IsUnquoted ∧ v.IsUnsigned) (language : Language) :
    SameMinus (d.render language) d.tokens := by
  induction h with
  | column hword hname =>
      rw [render, tokens]
      exact sameMinus_columnText hword language
  | @constant v h =>
      have hne : v.text ≠ [] := by
        rcases h.2.text_cases h.1 with ⟨digits, places, htext⟩ | hword
        · obtain ⟨c, text, hopens, -⟩ := opens_fixedPoint digits places
          rw [htext, hopens]
          exact List.cons_ne_nil c text
        · rintro hempty
          rw [hempty] at hword
          exact absurd hword (by decide)
      rw [render, tokens]
      exact .of_notMem (by simpa using hne) (minus_notMem_text h.2 h.1) (by simp)
  | @call name arguments hword hname h ih =>
      have hcolumn := sameMinus_columnText hword .compact
      rw [Token.ofWord_of_notMem hname] at hcolumn
      have harguments := sameMinus_separator.intercalate ih
      have hcall := ((hcolumn.append sameMinus_openParen).append harguments).append
        sameMinus_closeParen
      rw [render, tokens, renderAll_eq_map, tokensAll_eq_map]
      simpa [columnText] using hcall
  | group h ih =>
      have hgroup := (sameMinus_openParen.append ih).append sameMinus_closeParen
      rw [render, tokens]
      simpa using hgroup
  | unary op h ih =>
      rw [render, tokens]
      exact (sameMinus_before op language).append ih
  | binary op ha hb iha ihb =>
      have hbinary := (iha.append (sameMinus_between op language)).append ihb
      rw [render, tokens]
      simpa using hbinary

end Directive

/-! ## The tokens of a tree and of its text -/

theorem Directive.IsExpression.getLast?_tokens {d : Directive} (h : d.IsExpression) :
    ∃ t, d.tokens.getLast? = some t ∧ t ≠ .symbol .minus := by
  induction h with
  | column name => exact ⟨.ofWord name, rfl, Token.ofWord_ne_minus name⟩
  | constant value => exact ⟨_, rfl, by simp⟩
  | call name h ih => exact ⟨.symbol .closeParen, by simp [tokens, List.getLast?_cons], by simp⟩
  | group h ih => exact ⟨.symbol .closeParen, by simp [tokens, List.getLast?_cons], by simp⟩
  | unary op h ih =>
      obtain ⟨t, ht, hminus⟩ := ih
      exact ⟨t, by simp [tokens, List.getLast?_cons, ht], hminus⟩
  | binary op ha hb iha ihb =>
      obtain ⟨t, ht, hminus⟩ := ihb
      exact ⟨t, by simp [tokens, List.getLast?_cons, ht], hminus⟩

/-- The last comma of a list of arguments stands beside no minus. -/
theorem CommaJoined.parallel {parts : List (List Token × Directive)} {ts : List Token}
    (h : CommaJoined parts ts) (hparts : ∀ p ∈ parts, p.2.IsExpression ∧
      Parallel (Token.symbol .minus) (.symbol .minus) p.1 p.2.tokens) :
    Parallel (Token.symbol .minus) (.symbol .minus) ts
      ([.symbol .comma].intercalate (parts.map (·.2.tokens))) := by
  induction h with
  | nil => exact .nil
  | last p =>
      rw [List.map_singleton, List.intercalate_singleton]
      exact (hparts p (by simp)).2
  | @cons ps ts p h ih =>
      obtain ⟨⟨hexpression, hp⟩, hrest⟩ := List.forall_mem_cons.1 hparts
      cases ps with
      | nil =>
          cases h
          obtain ⟨t, ht, hminus⟩ := hexpression.getLast?_tokens
          have hne : p.2.tokens ≠ [] := List.ne_nil_of_mem (List.mem_of_getLast? ht)
          simpa using hp.concat hne (by simpa [ht] using hminus) (by simp)
      | cons q ps =>
          have hcomma := (hp.append (.refl [.symbol .comma])).append (ih hrest)
          simpa [List.intercalate_cons_cons] using hcomma

/-- The minus tokens that a tree is read from stand as its own do. -/
theorem Derives.parallel {level : Nat} {ts : List Token} {d : Directive} (h : Derives level ts d) :
    Parallel (Token.symbol .minus) (.symbol .minus) ts d.tokens := by
  induction h with
  | literal value =>
      rw [Directive.tokens]
      exact .refl _
  | column name =>
      rw [Directive.tokens]
      refine .of_notMem (by simp) (by simp) ?_
      rw [List.mem_singleton]
      exact (Token.ofWord_ne_minus name).symm
  | andColumn | orColumn => exact .refl _
  | call name parts hjoined hparts ih =>
      have harguments := hjoined.parallel fun p hp => ⟨(hparts p hp).fits.isExpression, ih p hp⟩
      have hcall := ((Parallel.refl [.word name, .symbol .openParen]).append harguments).append
        (.refl [.symbol .closeParen])
      rw [Directive.tokens, Directive.tokensAll_eq_map, List.map_map]
      simpa [Function.comp_def] using hcall
  | group h ih =>
      have hgroup := ((Parallel.refl [.symbol .openParen]).append ih).append
        (.refl [.symbol .closeParen])
      rw [Directive.tokens]
      simpa using hgroup
  | @unary t op ts d hop h ih =>
      rw [Directive.tokens, UnaryOperator.eq_sign hop]
      exact (Parallel.refl [.symbol op.sign]).append ih
  | lift h ih => exact ih
  | @binary level t op ts us a b ha hop hb iha ihb =>
      rw [Directive.tokens, BinaryOperator.eq_sign (atLevel?_eq_some_iff.1 hop).1]
      simpa using (iha.append (.refl [.symbol op.sign])).append ihb

/-! ## Statements -/

/-- The text does not end with a minus sign, and has two of them side by
side exactly under the condition. -/
structure DoublesIff (text : List Char) (condition : Prop) : Prop where
  last : text.getLast? ≠ some '-'
  doubled : Doubled '-' text ↔ condition

namespace DoublesIff

variable {text rest : List Char} {p q : Prop}

theorem of_notMem (h : '-' ∉ text) : DoublesIff text False where
  last := fun hlast => h (List.mem_of_getLast? hlast)
  doubled := iff_of_false (not_doubled_of_notMem h) id

theorem congr (h : DoublesIff text p) (hpq : p ↔ q) : DoublesIff text q :=
  ⟨h.last, h.doubled.trans hpq⟩

theorem append (h : DoublesIff text p) (hrest : DoublesIff rest q) :
    DoublesIff (text ++ rest) (p ∨ q) where
  last := by
    rw [Ne, getLast?_append_eq_some]
    rintro (hlast | ⟨-, hlast⟩)
    · exact hrest.last hlast
    · exact h.last hlast
  doubled := by
    rw [doubled_append, h.doubled, hrest.doubled]
    simp [h.last]

/-- A text before or after without minus signs changes nothing. -/
theorem after (h : DoublesIff text p) (hrest : '-' ∉ rest) : DoublesIff (rest ++ text) p :=
  ((of_notMem hrest).append h).congr (by rw [false_or])

theorem before (h : DoublesIff text p) (hrest : '-' ∉ rest) : DoublesIff (text ++ rest) p :=
  (h.append (of_notMem hrest)).congr (by rw [or_false])

end DoublesIff

theorem exists_mem_map {ds : List Directive} {f : Directive → List Char} {p : List Char → Prop} :
    (∃ m ∈ ds.map f, p m) ↔ ∃ d ∈ ds, p (f d) := by
  constructor
  · rintro ⟨m, hm, h⟩
    obtain ⟨d, hd, rfl⟩ := List.mem_map.1 hm
    exact ⟨d, hd, h⟩
  · rintro ⟨d, hd, h⟩
    exact ⟨f d, List.mem_map_of_mem hd, h⟩

namespace Select

section

variable {members : List (List Char)} (h : ∀ m ∈ members, m.getLast? ≠ some '-')
include h

theorem doublesIff_intercalate {separator : List Char} (hseparator : '-' ∉ separator) :
    DoublesIff (separator.intercalate members) (∃ m ∈ members, Doubled '-' m) := by
  induction members with
  | nil => exact (DoublesIff.of_notMem (by simp)).congr (by simp)
  | cons m members ih =>
      obtain ⟨hm, hmembers⟩ := List.forall_mem_cons.1 h
      have hfirst : DoublesIff m (Doubled '-' m) := ⟨hm, .rfl⟩
      cases members with
      | nil => simpa using hfirst
      | cons n members =>
          rw [List.intercalate_cons_cons]
          refine ((hfirst.before hseparator).append (ih hmembers)).congr ?_
          simp only [List.mem_cons, exists_eq_or_imp]

theorem doublesIff_commaJoined : DoublesIff (commaJoined members) (∃ m ∈ members, Doubled '-' m) :=
  doublesIff_intercalate h (by decide)

theorem doublesIff_conjunction :
    DoublesIff (conjunction members) (∃ m ∈ members, Doubled '-' m) := by
  unfold conjunction
  split
  next member =>
    simpa using (⟨h member (by simp), .rfl⟩ : DoublesIff member (Doubled '-' member))
  next =>
    have hjoined := doublesIff_intercalate h (by decide : '-' ∉ ") AND (".toList)
    exact (hjoined.after (by decide : '-' ∉ ['('])).before (by decide)

theorem doublesIff_selection : DoublesIff (selection members) (∃ m ∈ members, Doubled '-' m) := by
  unfold selection
  split
  next hempty =>
    rw [List.isEmpty_iff.1 hempty]
    exact (DoublesIff.of_notMem (by decide)).congr (by simp)
  next => exact doublesIff_commaJoined h

omit h in
theorem doublesIff_part {keyword : String} {join : List (List Char) → List Char}
    (hkeyword : '-' ∉ keyword.toList)
    (hjoin : DoublesIff (join members) (∃ m ∈ members, Doubled '-' m)) :
    DoublesIff (part keyword join members) (∃ m ∈ members, Doubled '-' m) := by
  unfold part
  split
  next hempty =>
    rw [List.isEmpty_iff.1 hempty]
    exact (DoublesIff.of_notMem (by simp)).congr (by simp)
  next => exact hjoin.after hkeyword

end

theorem doublesIff_sortKey {d : Directive} (h : (d.render .relational).getLast? ≠ some '-') :
    DoublesIff (sortKey d) (Doubled '-' (d.render .relational)) := by
  have hkey : DoublesIff (d.render .relational) (Doubled '-' (d.render .relational)) := ⟨h, .rfl⟩
  unfold sortKey
  refine hkey.before ?_
  cases d with
  | order key direction =>
      dsimp only
      split
      next => decide
      next => split <;> decide
  | _ => simp

variable {log : Array Directive} {a : Arrangement}

theorem doublesIff_rowBounds {limit offset : Option Nat}
    (hlimit : ∀ m ∈ members log limit.toArray, m.getLast? ≠ some '-')
    (hoffset : ∀ m ∈ members log offset.toArray, m.getLast? ≠ some '-') :
    DoublesIff (rowBounds log limit offset) ((∃ m ∈ members log limit.toArray, Doubled '-' m) ∨
      ∃ m ∈ members log offset.toArray, Doubled '-' m) := by
  rw [rowBounds_eq]
  refine .append ?_ (doublesIff_part (by decide) (doublesIff_commaJoined hoffset))
  split
  next h =>
    rw [Bool.and_eq_true, Option.isNone_iff_eq_none] at h
    have hmax : '-' ∉ part " LIMIT " commaJoined [Nat.toDigits 10 maxRows] := by decide +kernel
    refine (DoublesIff.of_notMem hmax).congr ?_
    rw [h.1]
    exact iff_of_false id (by simp [members, pick])
  next => exact doublesIff_part (by decide) (doublesIff_commaJoined hlimit)

/-- The minus signs of a statement are those of what it shows. -/
theorem doublesIff_statement {table : String} (htable : '-' ∉ table.toList)
    (h : ∀ d ∈ shown log a, (d.render .relational).getLast? ≠ some '-') :
    DoublesIff (statement table log a) (∃ d ∈ shown log a, Doubled '-' (d.render .relational)) := by
  have hmembers (positions : Array Nat) (hsub : ∀ d ∈ pick log positions, d ∈ shown log a) :
      ∀ m ∈ members log positions, m.getLast? ≠ some '-' := by
    intro m hm
    obtain ⟨d, hd, rfl⟩ := List.mem_map.1 hm
    exact h d (hsub d hd)
  have hkey : ∀ d ∈ pick log a.orders,
      DoublesIff (sortKey d) (Doubled '-' (d.render .relational)) :=
    fun d hd => doublesIff_sortKey (h d (by simp [shown, hd]))
  have hkeys : ∀ m ∈ (pick log a.orders).map sortKey, m.getLast? ≠ some '-' := by
    intro m hm
    obtain ⟨d, hd, rfl⟩ := List.mem_map.1 hm
    exact (hkey d hd).last
  have hsorted : (∃ m ∈ (pick log a.orders).map sortKey, Doubled '-' m) ↔
      ∃ d ∈ pick log a.orders, Doubled '-' (d.render .relational) := by
    rw [exists_mem_map]
    exact exists_congr fun d => and_congr_right fun hd => (hkey d hd).doubled
  have hselect := (doublesIff_selection (hmembers a.values fun d hd => by simp [shown, hd])).after
    (by split <;> decide : '-' ∉ (if a.distinct then "SELECT DISTINCT " else "SELECT ").toList)
  have hfrom := (DoublesIff.of_notMem (by simpa [Directive.columnText] using htable :
    '-' ∉ Directive.columnText table .relational)).after (by decide : '-' ∉ " FROM ".toList)
  have hwhere := doublesIff_part (by decide : '-' ∉ " WHERE ".toList)
    (doublesIff_conjunction (hmembers a.filters fun d hd => by simp [shown, hd]))
  have hgroup := doublesIff_part (by decide : '-' ∉ " GROUP BY ".toList)
    (doublesIff_commaJoined (hmembers a.groupings fun d hd => by simp [shown, hd]))
  have hhaving := doublesIff_part (by decide : '-' ∉ " HAVING ".toList)
    (doublesIff_conjunction (hmembers a.groupFilters fun d hd => by simp [shown, hd]))
  have horder := doublesIff_part (by decide : '-' ∉ " ORDER BY ".toList)
    (doublesIff_commaJoined hkeys)
  have hbounds := doublesIff_rowBounds (hmembers a.limit.toArray fun d hd => by simp [shown, hd])
    (hmembers a.offset.toArray fun d hd => by simp [shown, hd])
  have hall := (((((hselect.append hfrom).append hwhere).append hgroup).append hhaving).append
    horder).append hbounds
  refine hall.congr ?_
  rw [hsorted]
  simp only [members, exists_mem_map, shown, List.mem_append, or_and_right, exists_or, or_false,
    or_assoc]

end Select

namespace Directive

/-- The directive inside a clause or a sort key. -/
def body : Directive → Directive
  | clause _ inner | order inner _ => inner
  | d => d

theorem render_body (d : Directive) : d.body.render .relational = d.render .relational := by
  cases d <;> rfl

theorem IsExpression.body_eq {d : Directive} (h : d.IsExpression) : d.body = d := by
  cases h <;> rfl

theorem argument_tokens_isInfix (name : String) (d : Directive) (ds : List Directive) :
    d.tokens <:+: (call name (d :: ds)).tokens := by
  rw [tokens, tokensAll]
  cases ds with
  | nil => exact ⟨[.word name, .symbol .openParen], [.symbol .closeParen], by simp [tokensAll]⟩
  | cons e ds =>
      rw [tokensAll, List.intercalate_cons_cons]
      exact ⟨[.word name, .symbol .openParen], _, by simp [List.append_assoc]; rfl⟩

/-- What an expression stands for has a part of it as its body. -/
theorem IsRead.body {e d : Directive} (h : e.IsRead) (hread : ReadAs e d) :
    d.body.IsRead ∧ d.body.tokens <:+: e.tokens := by
  cases hread with
  | clause c inner => exact ⟨h.argument inner (by simp), argument_tokens_isInfix _ _ _⟩
  | order key => exact ⟨h.argument key (by simp), argument_tokens_isInfix _ _ _⟩
  | directed key hdirection => exact ⟨h.argument key (by simp), argument_tokens_isInfix _ _ _⟩
  | other hclause =>
      rw [h.fits.isExpression.body_eq]
      exact ⟨h, List.infix_refl _⟩

end Directive

/-! ## Queries -/

theorem Directive.IsRead.sameMinus {d : Directive} (h : d.IsRead) (language : Language) :
    SameMinus (d.render language) d.tokens :=
  (h.unquoted.and h.unsigned).sameMinus language

/-- The minus signs of an item that was read. -/
theorem DerivesItem.minuses {n : Nat} {ts : List Token} {d : Directive}
    (h : DerivesItem n ts d) (hlexed : ∀ t ∈ ts, t.IsLexed)
    (hstrings : ∀ s, Token.literal (.string s) ∉ ts) :
    DoublesIff (d.render .relational) (Doubled (.symbol .minus) d.body.tokens) ∧
      (Doubled (.symbol .minus) d.body.tokens → Doubled (.symbol .minus) ts) := by
  -- The statement shows nothing of a marker, and a marker has no tokens of its own.
  have hmarker : DoublesIff [] (Doubled (Token.symbol .minus) []) ∧
      (Doubled (Token.symbol .minus) [] → Doubled (.symbol .minus) ts) :=
    ⟨(DoublesIff.of_notMem (by simp)).congr (iff_of_false id not_doubled_nil),
      fun hdoubled => (not_doubled_nil hdoubled).elim⟩
  cases h with
  | distinct | all =>
      rw [Directive.render]
      exact hmarker
  | expression h hdistinct hall hread =>
      obtain ⟨hbody, hinfix⟩ := (h.isRead hlexed hstrings).body hread
      have hminus := hbody.sameMinus .relational
      rw [Directive.render_body] at hminus
      obtain ⟨t, ht, hlast⟩ := hbody.fits.isExpression.getLast?_tokens
      refine ⟨⟨?_, hminus.doubled⟩, ?_⟩
      · rw [Ne, hminus.last, ht]
        simpa using hlast
      · intro hdoubled
        rw [h.parallel.doubled]
        exact hdoubled.trans hinfix

/-- A statement for a text has two minus signs side by side exactly if a
directive that it shows has two minus tokens side by side, and only if the
text has. -/
theorem Query.doubled_minus_iff {text : String} {ts : List Token} {q : Query}
    (htext : HasTokens text ts) (hstrings : ∀ s, Token.literal (.string s) ∉ ts)
    (hparse : parse text = .ok q) :
    (Doubled '-' (q.text .relational).toList ↔
        ∃ d ∈ q.shown, Doubled (.symbol .minus) d.body.tokens) ∧
      (Doubled '-' (q.text .relational).toList → Doubled (.symbol .minus) ts) := by
  obtain ⟨us, n, husText, hderives, hn⟩ := parse_eq_ok hparse
  obtain rfl := husText.unique htext
  cases hderives with
  | @mk us ds table hitems =>
      have hlexed := htext.isLexed
      have htable : '-' ∉ ((new table).appendAll ds).table.toList := by
        rw [table_appendAll]
        exact minus_notMem_of_isWord (hlexed (.word table) (by simp)).1
      have hinfix :
          us <:+: .word table :: .symbol .openBracket :: (us ++ [.symbol .closeBracket]) :=
        ⟨[.word table, .symbol .openBracket], [.symbol .closeBracket], by simp⟩
      have hdirectives : ((new table).appendAll ds).directives = ds := directives_appendAll _ _
      obtain ⟨items, hitems, hderived, -⟩ := hitems.exists_parts
      have hshown : ∀ d ∈ ((new table).appendAll ds).shown,
          DoublesIff (d.render .relational) (Doubled (.symbol .minus) d.body.tokens) ∧
            (Doubled (.symbol .minus) d.body.tokens → Doubled (.symbol .minus) us) := by
        intro d hd
        have hmem := mem_directives_of_mem_shown hd
        rw [hdirectives, ← hitems] at hmem
        obtain ⟨i, hi, rfl⟩ := List.mem_map.1 hmem
        obtain ⟨hitem, hpart⟩ := hderived i hi
        have hsub := (hpart.trans hinfix).subset
        obtain ⟨hdoubles, htokens⟩ := hitem.minuses (fun t ht => hlexed t (hsub ht))
          fun s hs => hstrings s (hsub hs)
        exact ⟨hdoubles, fun h => (htokens h).trans hpart⟩
      have hstatement := Select.doublesIff_statement htable fun d hd => (hshown d hd).1.last
      have hiff : Doubled '-' (((new table).appendAll ds).text .relational).toList ↔
          ∃ d ∈ ((new table).appendAll ds).shown, Doubled (.symbol .minus) d.body.tokens := by
        rw [Query.text, String.toList_ofList]
        refine hstatement.doubled.trans (exists_congr fun d => and_congr_right fun hd => ?_)
        exact (hshown d hd).1.doubled
      refine ⟨hiff, ?_⟩
      rw [hiff]
      rintro ⟨d, hd, hdoubled⟩
      exact ((hshown d hd).2 hdoubled).trans hinfix

/-- A column less a negative column. -/
def negatedQuery : Query := (Query.new "t").appendAll
  [.binary .subtract (.column "a") (.unary .negative (.column "b"))]

def negatedTokens : List Token :=
  [.word "t", .symbol .openBracket, .word "a", .symbol .minus, .symbol .minus, .word "b",
    .symbol .closeBracket]

theorem parse_negated :
    Query.parse "t[a--b]" = .ok negatedQuery ∧ HasTokens "t[a--b]" negatedTokens := by
  have htext : HasTokens "t[a--b]" negatedTokens :=
    hasTokens_iff_lexes.2 (lexes_of_atMost (n := 10) (by decide +kernel) (by decide +kernel))
  have hoperand : Derives 0 [.symbol .minus, .word "b"] (.unary .negative (.column "b")) :=
    .unary rfl (.column "b")
  have hminus : atLevel? 2 (.symbol .minus) = some .subtract := rfl
  have hsum := ((Derives.column "a").mono (Nat.zero_le 2)).binary hminus
    (hoperand.mono (Nat.zero_le 1))
  have hitem := DerivesItem.expression (hsum.mono (by decide : 2 ≤ loosest)) (by simp) (by simp)
    (.other id)
  refine ⟨(Query.parse_of_derives htext (.mk "t" (.last (.item hitem)))).1 (by decide), htext⟩

theorem negatedQuery_doubled : (HasTokens "t[a--b]" negatedTokens ∧
      (∀ s, Token.literal (.string s) ∉ negatedTokens) ∧
        Query.parse "t[a--b]" = .ok negatedQuery) ∧
    (Doubled '-' (negatedQuery.text .relational).toList ↔
        ∃ d ∈ negatedQuery.shown, Doubled (.symbol .minus) d.body.tokens) ∧
      (Doubled '-' (negatedQuery.text .relational).toList →
        Doubled (.symbol .minus) negatedTokens) := by
  have hstrings : ∀ s, Token.literal (.string s) ∉ negatedTokens := by simp [negatedTokens]
  exact ⟨⟨parse_negated.2, hstrings, parse_negated.1⟩,
    Query.doubled_minus_iff parse_negated.2 hstrings parse_negated.1⟩

/-- The statement for a text without strings may open a comment. -/
theorem negatedQuery_opens_comment : ¬ ∀ ts q, HasTokens "t[a--b]" ts →
    (∀ s, Token.literal (.string s) ∉ ts) → Query.parse "t[a--b]" = .ok q →
      ¬ Doubled '-' (q.text .relational).toList := by
  intro h
  apply h negatedTokens negatedQuery parse_negated.2 (by simp [negatedTokens]) parse_negated.1
  refine ⟨"SELECT \"a\"".toList, "\"b\" FROM \"t\"".toList, ?_⟩
  decide +kernel

end QueryNotation
