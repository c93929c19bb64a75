import QueryNotation.Proofs.AdjacentMinus

/-!
# Names between quotes

A statement puts names between double quotes and escapes nothing. If the
text that was read has no strings, then its statement can still be taken
apart in one way only: the quotes come in pairs, with one name between the
two of a pair. The names are words, and outside of quotes there are only
word characters, spaces and the signs of operators, so that no name ends
its quotes early.
-/

namespace QueryNotation

open Number Text

/-- A character of a statement outside of quotes, or a name with its quotes. -/
inductive Glyph where
  | character (c : Char)
  | name (name : String)

def IsPlainCharacter (c : Char) : Prop := continuesWord c = true ∨ c ∈ " .,()+-*/=!<>".toList

namespace Glyph

def text : Glyph → List Char
  | character c => [c]
  | name n => '"' :: n.toList ++ ['"']

def name? : Glyph → Option String
  | character _ => none
  | name n => some n

def IsClosed : Glyph → Prop
  | character c => c ≠ '"'
  | name n => '"' ∉ n.toList

def IsHarmless : Glyph → Prop
  | character c => IsPlainCharacter c
  | name n => IsWord n

end Glyph

theorem IsPlainCharacter.ne_quote {c : Char} (h : IsPlainCharacter c) : c ≠ '"' := by
  rintro rfl
  rcases h with h | h
  · exact absurd h (by decide)
  · exact absurd h (by decide)

theorem IsWord.quote_notMem {name : String} (h : IsWord name) : '"' ∉ name.toList :=
  fun hmem => absurd (h.2 _ hmem) (by decide)

theorem Glyph.IsHarmless.isClosed {g : Glyph} (h : g.IsHarmless) : g.IsClosed := by
  cases g with
  | character c => exact IsPlainCharacter.ne_quote h
  | name n => exact IsWord.quote_notMem h

theorem append_quote_inj {front front' back back' : List Char} (hfront : '"' ∉ front)
    (hfront' : '"' ∉ front') (h : front ++ '"' :: back = front' ++ '"' :: back') :
    front = front' ∧ back = back' := by
  have htake {front back : List Char} (hfront : '"' ∉ front) :
      (front ++ '"' :: back).takeWhile (· != '"') = front := by
    apply takeWhile_append_of_stop
    · intro c hc
      rw [bne_iff_ne]
      rintro rfl
      exact hfront hc
    · rintro c ⟨⟩
      rfl
  have heq : front = front' := by rw [← htake hfront, h, htake hfront']
  subst heq
  exact ⟨rfl, List.tail_eq_of_cons_eq (List.append_cancel_left h)⟩

/-- The text is made of the glyphs, and its quotes are those around names. -/
structure Reads (text : List Char) (gs : List Glyph) : Prop where
  text_eq : gs.flatMap Glyph.text = text
  isClosed : ∀ g ∈ gs, g.IsClosed

/-- The quotes of a text say how it is to be taken apart. -/
theorem Reads.unique {text : List Char} {gs hs : List Glyph} (hgs : Reads text gs)
    (hhs : Reads text hs) : gs = hs := by
  obtain ⟨rfl, hgs⟩ := hgs
  obtain ⟨htext, hhs⟩ := hhs
  induction gs generalizing hs with
  | nil =>
      cases hs with
      | nil => rfl
      | cons h hs => cases h <;> simp [Glyph.text] at htext
  | cons g gs ih =>
      obtain ⟨hg, hgs'⟩ := List.forall_mem_cons.1 hgs
      cases hs with
      | nil => cases g <;> simp [Glyph.text] at htext
      | cons h hs =>
          obtain ⟨hh, hhs'⟩ := List.forall_mem_cons.1 hhs
          cases g with
          | character c =>
              cases h with
              | character d =>
                  obtain ⟨rfl, hrest⟩ := List.cons.inj htext
                  rw [ih hgs' hrest hhs']
              | name n => exact (hg (List.cons.inj htext).1.symm).elim
          | name n =>
              cases h with
              | character d => exact (hh (List.cons.inj htext).1).elim
              | name m =>
                  -- Both names go up to the first quote.
                  have hclosed : m.toList ++ '"' :: hs.flatMap Glyph.text =
                      n.toList ++ '"' :: gs.flatMap Glyph.text := by
                    simpa [Glyph.text] using htext
                  obtain ⟨hname, hrest⟩ := append_quote_inj hh hg hclosed
                  rw [String.toList_inj.1 hname, ih hgs' hrest hhs']

/-! ## Texts with names -/

/-- The text shows the names between quotes, in order, and is plain outside of
them. -/
def ShowsNames (text : List Char) (names : List String) : Prop :=
  ∃ gs : List Glyph, gs.flatMap Glyph.text = text ∧ (∀ g ∈ gs, g.IsHarmless) ∧
    gs.filterMap Glyph.name? = names

namespace ShowsNames

variable {text front back rest : List Char} {names others : List String}

theorem plain (h : ∀ c ∈ text, IsPlainCharacter c) : ShowsNames text [] := by
  refine ⟨text.map .character, ?_, ?_, ?_⟩
  · simp [List.flatMap_map, Glyph.text]
  · intro g hg
    obtain ⟨c, hc, rfl⟩ := List.mem_map.1 hg
    exact h c hc
  · simp [List.filterMap_map, Function.comp_def, Glyph.name?]

theorem quoted {name : String} (h : IsWord name) :
    ShowsNames ('"' :: name.toList ++ ['"']) [name] := by
  refine ⟨[.name name], by simp [Glyph.text], ?_, rfl⟩
  intro g hg
  rw [List.mem_singleton.1 hg]
  exact h

theorem append (h : ShowsNames text names) (hrest : ShowsNames rest others) :
    ShowsNames (text ++ rest) (names ++ others) := by
  obtain ⟨gs, rfl, hgs, rfl⟩ := h
  obtain ⟨hs, rfl, hhs, rfl⟩ := hrest
  exact ⟨gs ++ hs, List.flatMap_append, List.forall_mem_append.2 ⟨hgs, hhs⟩, List.filterMap_append⟩

theorem after (h : ShowsNames text names) (hfront : ∀ c ∈ front, IsPlainCharacter c) :
    ShowsNames (front ++ text) names := (plain hfront).append h

theorem before (h : ShowsNames text names) (hback : ∀ c ∈ back, IsPlainCharacter c) :
    ShowsNames (text ++ back) names := by
  have happend := h.append (plain hback)
  rwa [List.append_nil] at happend

theorem parenthesized (h : ShowsNames text names) : ShowsNames ('(' :: text ++ [')']) names := by
  have hopen : ∀ c ∈ ['('], IsPlainCharacter c := by simp [IsPlainCharacter]
  have hclose : ∀ c ∈ [')'], IsPlainCharacter c := by simp [IsPlainCharacter]
  exact (h.after hopen).before hclose

theorem intercalate {ι : Type} {separator : List Char}
    (hseparator : ∀ c ∈ separator, IsPlainCharacter c) {pieces : List ι} {f : ι → List Char}
    {g : ι → List String} (h : ∀ i ∈ pieces, ShowsNames (f i) (g i)) :
    ShowsNames (separator.intercalate (pieces.map f)) (pieces.flatMap g) := by
  induction pieces with
  | nil => exact plain (by simp)
  | cons i pieces ih =>
      obtain ⟨hi, hpieces⟩ := List.forall_mem_cons.1 h
      cases pieces with
      | nil => simpa using hi
      | cons j pieces =>
          rw [List.map_cons, List.map_cons, List.intercalate_cons_cons, List.flatMap_cons]
          exact (hi.before hseparator).append (ih hpieces)

end ShowsNames

/-! ## Trees -/

namespace Directive

mutual

def columns : Directive → List String
  | column name => [name]
  | call _ arguments => columnsAll arguments
  | group inner | unary _ inner | clause _ inner | order inner _ => inner.columns
  | binary _ left right => left.columns ++ right.columns
  | constant _ | distinct | all => []

def columnsAll : List Directive → List String
  | [] => []
  | d :: rest => d.columns ++ columnsAll rest

end

theorem columnsAll_eq_flatMap (ds : List Directive) : columnsAll ds = ds.flatMap columns := by
  induction ds with
  | nil => rfl
  | cons d ds ih => rw [columnsAll, ih, List.flatMap_cons]

theorem columns_body (d : Directive) : d.body.columns = d.columns := by
  cases d with
  | clause c inner => rw [body, columns]
  | order key direction => rw [body, columns]
  | _ => rfl

end Directive

theorem isPlainCharacter_of_mem_fixedPoint {digits places : Nat} {c : Char}
    (h : c ∈ fixedPoint digits places) : IsPlainCharacter c := by
  rcases isDigit_or_point_of_mem_fixedPoint h with hdigit | rfl
  · exact .inl (continuesWord_of_isDigit hdigit)
  · exact .inr (by decide)

theorem isPlainCharacter_of_mem_name {name : String} (h : IsWord name) :
    ∀ c ∈ name.toList, IsPlainCharacter c := fun c hc => .inl (h.2 c hc)

/-- The words, separators and symbols of a statement. -/
def fixedTexts : List String :=
  ["SELECT ", "SELECT DISTINCT ", "*", " FROM ", " WHERE ", " GROUP BY ", " HAVING ",
    " ORDER BY ", " ASC", " DESC", " LIMIT ", " OFFSET ", ", ", ") AND (", "true", "false", "inf",
    "not", "+", "-", "/", "==", "!=", "<", "<=", ">", ">=", " AND ", " OR "]

theorem isPlainCharacter_of_mem_fixed (text : String) (h : text ∈ fixedTexts) :
    ∀ c ∈ text.toList, IsPlainCharacter c := by
  have hall : fixedTexts.all (fun text => text.toList.all fun c =>
      continuesWord c || " .,()+-*/=!<>".toList.contains c) = true := by decide +kernel
  intro c hc
  have hplain := List.all_eq_true.1 (List.all_eq_true.1 hall text h) c hc
  rw [Bool.or_eq_true, List.contains_iff_mem] at hplain
  exact hplain

theorem Value.isPlainCharacter_of_mem_text {v : Value} (h : v.IsUnsigned) (hunquoted : v.IsUnquoted)
    {c : Char} (hc : c ∈ v.text) : IsPlainCharacter c := by
  rcases h.text_cases hunquoted with ⟨digits, places, htext⟩ | hword
  · rw [htext] at hc
    exact isPlainCharacter_of_mem_fixedPoint hc
  · obtain ⟨word, hfixed, hword⟩ : ∃ word ∈ fixedTexts, v.text = word.toList := by
      simp only [List.mem_cons, List.not_mem_nil, or_false] at hword
      rcases hword with hword | hword | hword <;> exact ⟨_, by simp [fixedTexts], hword⟩
    rw [hword] at hc
    exact isPlainCharacter_of_mem_fixed _ hfixed c hc

theorem isPlainCharacter_of_mem_before (op : UnaryOperator) :
    ∀ c ∈ (op.symbol .relational).toList, IsPlainCharacter c :=
  isPlainCharacter_of_mem_fixed _ (by cases op <;> simp [fixedTexts, UnaryOperator.symbol])

theorem isPlainCharacter_of_mem_between (op : BinaryOperator) :
    ∀ c ∈ (op.symbol .relational).toList, IsPlainCharacter c :=
  isPlainCharacter_of_mem_fixed _ (by cases op <;> simp [fixedTexts, BinaryOperator.symbol])

theorem Directive.Worded.showsNames {d : Directive}
    (h : d.Worded fun v => v.IsUnquoted ∧ v.IsUnsigned) :
    ShowsNames (d.render .relational) d.columns := by
  induction h with
  | column hword hname =>
      rw [render, columns]
      exact .quoted hword
  | constant h =>
      rw [render, columns]
      exact .plain fun c => Value.isPlainCharacter_of_mem_text h.2 h.1
  | @call name arguments hword hname h ih =>
      have hseparator := isPlainCharacter_of_mem_fixed ", " (by simp [fixedTexts])
      have hcall := (ShowsNames.intercalate hseparator ih).parenthesized.after
        (isPlainCharacter_of_mem_name hword)
      rw [render, columns, renderAll_eq_map, columnsAll_eq_flatMap]
      simpa using hcall
  | group h ih =>
      rw [render, columns]
      exact ih.parenthesized
  | unary op h ih =>
      rw [render, columns]
      exact ih.after (isPlainCharacter_of_mem_before op)
  | binary op ha hb iha ihb =>
      rw [render, columns]
      exact (iha.before (isPlainCharacter_of_mem_between op)).append ihb

theorem DerivesItem.showsNames {n : Nat} {ts : List Token} {d : Directive}
    (h : DerivesItem n ts d) (hlexed : ∀ t ∈ ts, t.IsLexed)
    (hstrings : ∀ s, Token.literal (.string s) ∉ ts) :
    ShowsNames (d.render .relational) d.columns := by
  cases h with
  | distinct | all => exact .plain (by simp [Directive.render])
  | expression h hdistinct hall hread =>
      obtain ⟨hbody, -⟩ := (h.isRead hlexed hstrings).body hread
      rw [← Directive.render_body, ← Directive.columns_body]
      exact (hbody.unquoted.and hbody.unsigned).showsNames

/-! ## Statements -/

namespace Select

section

variable {ds : List Directive} {f : Directive → List Char}
  (h : ∀ d ∈ ds, ShowsNames (f d) d.columns)
include h

theorem showsNames_commaJoined :
    ShowsNames (commaJoined (ds.map f)) (ds.flatMap Directive.columns) :=
  .intercalate (isPlainCharacter_of_mem_fixed _ (by simp [fixedTexts])) h

theorem showsNames_conjunction :
    ShowsNames (conjunction (ds.map f)) (ds.flatMap Directive.columns) := by
  have hseparator : ∀ c ∈ ") AND (".toList, IsPlainCharacter c :=
    isPlainCharacter_of_mem_fixed _ (by simp [fixedTexts])
  have hseveral := (ShowsNames.intercalate hseparator h).parenthesized
  match ds with
  | [] => exact hseveral
  | [d] => simpa [conjunction] using h d (by simp)
  | _ :: _ :: _ => exact hseveral

theorem showsNames_selection :
    ShowsNames (selection (ds.map f)) (ds.flatMap Directive.columns) := by
  cases ds with
  | nil =>
      have hstar : ∀ c ∈ "*".toList, IsPlainCharacter c :=
        isPlainCharacter_of_mem_fixed _ (by simp [fixedTexts])
      exact .plain hstar
  | cons d ds => exact showsNames_commaJoined h

omit h in
theorem showsNames_part (keyword : String) {join : List (List Char) → List Char}
    (hkeyword : keyword ∈ fixedTexts)
    (hjoin : ShowsNames (join (ds.map f)) (ds.flatMap Directive.columns)) :
    ShowsNames (part keyword join (ds.map f)) (ds.flatMap Directive.columns) := by
  cases ds with
  | nil => exact .plain (by simp [part])
  | cons d ds => exact hjoin.after (isPlainCharacter_of_mem_fixed _ hkeyword)

end

theorem showsNames_sortKey {d : Directive} (h : ShowsNames (d.render .relational) d.columns) :
    ShowsNames (sortKey d) d.columns := by
  unfold sortKey
  refine h.before ?_
  cases d with
  | order key direction =>
      dsimp only
      split
      next => exact isPlainCharacter_of_mem_fixed _ (by simp [fixedTexts])
      next =>
        split
        next => exact isPlainCharacter_of_mem_fixed _ (by simp [fixedTexts])
        next => simp
  | _ => simp

variable {log : Array Directive} {a : Arrangement}

theorem showsNames_rowBounds {limit offset : Option Nat}
    (hlimit : ∀ d ∈ pick log limit.toArray, ShowsNames (d.render .relational) d.columns)
    (hoffset : ∀ d ∈ pick log offset.toArray, ShowsNames (d.render .relational) d.columns) :
    ShowsNames (rowBounds log limit offset) ((pick log limit.toArray).flatMap Directive.columns ++
      (pick log offset.toArray).flatMap Directive.columns) := by
  rw [rowBounds_eq]
  refine .append ?_ (showsNames_part _ (by simp [fixedTexts]) (showsNames_commaJoined hoffset))
  split
  next h =>
    rw [Bool.and_eq_true, Option.isNone_iff_eq_none] at h
    rw [h.1]
    have hdigits : ∀ c ∈ Nat.toDigits 10 maxRows, IsPlainCharacter c :=
      fun c hc => .inl (continuesWord_of_isDigit (isDigit_of_mem_toDigits hc))
    have hkeyword : ∀ c ∈ " LIMIT ".toList, IsPlainCharacter c :=
      isPlainCharacter_of_mem_fixed _ (by simp [fixedTexts])
    simpa [part, led, commaJoined, pick] using (ShowsNames.plain hdigits).after hkeyword
  next => exact showsNames_part _ (by simp [fixedTexts]) (showsNames_commaJoined hlimit)

/-- The names in the order in which a statement shows them. -/
def names (table : String) (log : Array Directive) (a : Arrangement) : List String :=
  (pick log a.values).flatMap Directive.columns ++ [table] ++
    (pick log a.filters).flatMap Directive.columns ++
    (pick log a.groupings).flatMap Directive.columns ++
    (pick log a.groupFilters).flatMap Directive.columns ++
    (pick log a.orders).flatMap Directive.columns ++
    ((pick log a.limit.toArray).flatMap Directive.columns ++
      (pick log a.offset.toArray).flatMap Directive.columns)

theorem showsNames_statement {table : String} (htable : IsWord table)
    (h : ∀ d ∈ log.toList, ShowsNames (d.render .relational) d.columns) :
    ShowsNames (statement table log a) (names table log a) := by
  have hpick (positions : Array Nat) :
      ∀ d ∈ pick log positions, ShowsNames (d.render .relational) d.columns :=
    fun d hd => h d (mem_of_mem_pick hd)
  have hkeyword : (if a.distinct then "SELECT DISTINCT " else "SELECT ") ∈ fixedTexts := by
    split <;> simp [fixedTexts]
  have hselect := (showsNames_selection (hpick a.values)).after
    (isPlainCharacter_of_mem_fixed _ hkeyword)
  have hfrom := (ShowsNames.quoted htable).after
    (isPlainCharacter_of_mem_fixed " FROM " (by simp [fixedTexts]))
  have hwhere := showsNames_part " WHERE " (by simp [fixedTexts])
    (showsNames_conjunction (hpick a.filters))
  have hgroup := showsNames_part " GROUP BY " (by simp [fixedTexts])
    (showsNames_commaJoined (hpick a.groupings))
  have hhaving := showsNames_part " HAVING " (by simp [fixedTexts])
    (showsNames_conjunction (hpick a.groupFilters))
  have horder := showsNames_part " ORDER BY " (by simp [fixedTexts])
    (showsNames_commaJoined fun d hd => showsNames_sortKey (hpick a.orders d hd))
  have hbounds := showsNames_rowBounds (hpick a.limit.toArray) (hpick a.offset.toArray)
  exact (((((hselect.append hfrom).append hwhere).append hgroup).append hhaving).append
    horder).append hbounds

theorem eq_or_mem_of_mem_names {table name : String} (h : name ∈ names table log a) :
    name = table ∨ ∃ d ∈ log.toList, name ∈ d.columns := by
  have hpick {positions : Array Nat}
      (h : name ∈ (pick log positions).flatMap Directive.columns) :
      ∃ d ∈ log.toList, name ∈ d.columns := by
    obtain ⟨d, hd, hname⟩ := List.mem_flatMap.1 h
    exact ⟨d, mem_of_mem_pick hd, hname⟩
  simp only [names, List.mem_append, List.mem_singleton] at h
  rcases h with (((((h | h) | h) | h) | h) | h) | h | h
  all_goals first | exact .inl h | exact .inr (hpick h)

end Select

def Query.shownNames (q : Query) : List String := Select.names q.table q.log q.arranged

theorem Query.showsNames_of_parse {text : String} {ts : List Token} {q : Query}
    (htext : HasTokens text ts) (hstrings : ∀ s, Token.literal (.string s) ∉ ts)
    (hparse : parse text = .ok q) : ShowsNames (q.render .relational) q.shownNames := by
  obtain ⟨us, n, husText, hderives, -⟩ := parse_eq_ok hparse
  obtain rfl := husText.unique htext
  cases hderives with
  | @mk us ds table hitems =>
      have hlexed := htext.isLexed
      have hdirectives : ((new table).appendAll ds).directives = ds := directives_appendAll _ _
      refine Select.showsNames_statement ?_ ?_
      · rw [table_appendAll]
        exact (hlexed (.word table) (by simp)).1
      · intro d hd
        change d ∈ ((new table).appendAll ds).directives at hd
        rw [hdirectives] at hd
        obtain ⟨m, vs, hitem, -, hsub⟩ := hitems.exists_item d hd
        have hmem {t : Token} (ht : t ∈ vs) : t ∈ Token.word table :: .symbol .openBracket ::
            (us ++ [.symbol .closeBracket]) := by simp [hsub ht]
        exact hitem.showsNames (fun t ht => hlexed t (hmem ht)) fun s hs => hstrings s (hmem hs)

/-- The statement for a text without strings can be taken apart in one way, and
then its quotes stand around the table and the columns that it shows. -/
theorem Query.quotes_enclose_names {text : String} {ts : List Token} {q : Query}
    (htext : HasTokens text ts) (hstrings : ∀ s, Token.literal (.string s) ∉ ts)
    (hparse : parse text = .ok q) :
    ∃ gs, Reads (q.text .relational).toList gs ∧
      (∀ hs, Reads (q.text .relational).toList hs → hs = gs) ∧ (∀ g ∈ gs, g.IsHarmless) ∧
      gs.filterMap Glyph.name? = q.shownNames ∧
      ∀ name ∈ q.shownNames, name = q.table ∨ ∃ d ∈ q.directives, name ∈ d.columns := by
  obtain ⟨gs, hgs, hharmless, hnames⟩ := showsNames_of_parse htext hstrings hparse
  have hreads : Reads (q.text .relational).toList gs := by
    rw [Query.text, String.toList_ofList]
    exact ⟨hgs, fun g hg => (hharmless g hg).isClosed⟩
  exact ⟨gs, hreads, fun hs hhs => hhs.unique hreads, hharmless, hnames,
    fun name => Select.eq_or_mem_of_mem_names⟩

/-- A column that is shown twice, and one behind a word operator. -/
def groupedQuery : Query := (Query.new "t").appendAll
  [.clause .grouping (.column "a"), .clause .filter (.unary .not (.column "b"))]

def groupedQueryTokens : List Token :=
  [.word "t", .symbol .openBracket, .word "by", .symbol .openParen, .word "a", .symbol .closeParen,
    .symbol .comma, .word "where", .symbol .openParen, .symbol .exclamation, .word "b",
    .symbol .closeParen, .symbol .closeBracket]

theorem parse_grouped : HasTokens "t[by(a),where(!b)]" groupedQueryTokens ∧
    Query.parse "t[by(a),where(!b)]" = .ok groupedQuery := by
  have htext : HasTokens "t[by(a),where(!b)]" groupedQueryTokens :=
    hasTokens_iff_lexes.2 (lexes_of_atMost (n := 20) (by decide +kernel) (by decide +kernel))
  have hcall (c : Clause) {ts : List Token} {inner : Directive} (h : Derives 0 ts inner) :
      ∃ n, DerivesItem n (.word c.word :: .symbol .openParen :: (ts ++ [.symbol .closeParen]))
        (.clause c inner) ∧ n = 1 + (max inner.cost 0) := by
    have hargument : Derives BinaryOperator.loosest ts inner := h.mono (Nat.zero_le _)
    have hderives := Derives.call c.word [(ts, inner)] (.last _) (by simpa using hargument)
    refine ⟨_, .expression (hderives.mono (Nat.zero_le _)) ?_ ?_ (.clause c inner), rfl⟩ <;>
      cases c <;> simp [Clause.word]
  obtain ⟨m, hgrouping, hm⟩ := hcall .grouping (.column "a")
  have hnot : Derives 0 [.symbol .exclamation, .word "b"] (.unary .not (.column "b")) :=
    .unary rfl (.column "b")
  obtain ⟨n, hfilter, hn⟩ := hcall .filter hnot
  have hquery := DerivesQuery.mk "t" (.cons (.item hgrouping) (.last (.item hfilter)))
  refine ⟨htext, (Query.parse_of_derives htext hquery).1 ?_⟩
  rw [hm, hn]
  decide

theorem groupedQuery_quotes : (HasTokens "t[by(a),where(!b)]" groupedQueryTokens ∧
      (∀ s, Token.literal (.string s) ∉ groupedQueryTokens) ∧
        Query.parse "t[by(a),where(!b)]" = .ok groupedQuery) ∧
    (∃ gs, Reads (groupedQuery.text .relational).toList gs ∧
      (∀ hs, Reads (groupedQuery.text .relational).toList hs → hs = gs) ∧
      (∀ g ∈ gs, g.IsHarmless) ∧ gs.filterMap Glyph.name? = groupedQuery.shownNames ∧
      ∀ name ∈ groupedQuery.shownNames,
        name = groupedQuery.table ∨ ∃ d ∈ groupedQuery.directives, name ∈ d.columns) ∧
    groupedQuery.shownNames = ["a", "t", "b", "a"] := by
  have hstrings : ∀ s, Token.literal (.string s) ∉ groupedQueryTokens := by simp [groupedQueryTokens]
  obtain ⟨htext, hparse⟩ := parse_grouped
  exact ⟨⟨htext, hstrings, hparse⟩, Query.quotes_enclose_names htext hstrings hparse,
    by decide +kernel⟩

end QueryNotation
