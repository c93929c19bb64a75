import QueryNotation.Proofs.ItemAcceptance
import QueryNotation.Proofs.ItemSpelling

/-!
# Clauses below the root

A clause may stand anywhere in a tree that was built, and only as an item
in the notation. Below the root its text is read as a call. The text of
this call is the same, unless the clause is a sort key with a direction:
between arguments there is a space after the comma, so that the text gets
longer.
-/

namespace QueryNotation

open BinaryOperator Number

/-- The names that are read as the names of calls. -/
def IsCallName (name : String) : Prop := name ∉ ["true", "false", "and", "or"]

/-- The directions that are not written out. -/
def IsUpward (direction : Binary64) : Prop := direction.equal .one = true

namespace Directive

/-- The trees of any shape without markers and strings. Their names are
words, and no columns are named like a truth value or a marker. The names
of calls and the directions of sort keys have a property each. -/
inductive Unmarked (names : String → Prop) (directions : Binary64 → Prop) : Directive → Prop where
  | column {name : String} (hword : IsWord name)
      (hname : name ∉ ["true", "false", "distinct", "all"]) : Unmarked names directions (.column name)
  | constant {value : Value} (h : value.IsUnquoted) : Unmarked names directions (.constant value)
  | call {name : String} {arguments : List Directive} (hword : IsWord name) (hname : names name)
      (h : ∀ d ∈ arguments, Unmarked names directions d) :
      Unmarked names directions (.call name arguments)
  | group {d : Directive} (h : Unmarked names directions d) : Unmarked names directions (.group d)
  | unary (op : UnaryOperator) {d : Directive} (h : Unmarked names directions d) :
      Unmarked names directions (.unary op d)
  | binary (op : BinaryOperator) {a b : Directive} (ha : Unmarked names directions a)
      (hb : Unmarked names directions b) : Unmarked names directions (.binary op a b)
  | clause (c : Clause) {d : Directive} (h : Unmarked names directions d) :
      Unmarked names directions (.clause c d)
  | order {key : Directive} {direction : Binary64} (h : Unmarked names directions key)
      (hdirection : directions direction) : Unmarked names directions (.order key direction)

theorem Unmarked.mono {names names' : String → Prop} {directions directions' : Binary64 → Prop}
    {d : Directive} (h : d.Unmarked names directions) (hnames : ∀ name, names name → names' name)
    (hdirections : ∀ x, directions x → directions' x) : d.Unmarked names' directions' := by
  induction h with
  | column hword hname => exact .column hword hname
  | constant h => exact .constant h
  | call hword hname h ih => exact .call hword (hnames _ hname) ih
  | group h ih => exact .group ih
  | unary op h ih => exact .unary op ih
  | binary op ha hb iha ihb => exact .binary op iha ihb
  | clause c h ih => exact .clause c ih
  | order h hdirection ih => exact .order ih (hdirections _ hdirection)

/-- A direction that is written out. -/
def writtenDirection (x : Binary64) : List Directive :=
  if x.equal .one then [] else [constant (.float x)]

mutual

/-- The tree with a call in place of every clause. -/
def asExpression : Directive → Directive
  | call name arguments => call name (asExpressionAll arguments)
  | group inner => group inner.asExpression
  | unary op operand => unary op operand.asExpression
  | binary op left right => binary op left.asExpression right.asExpression
  | clause c inner => call c.word [inner.asExpression]
  | order key x => call "order" (key.asExpression :: writtenDirection x)
  | d => d

def asExpressionAll : List Directive → List Directive
  | [] => []
  | d :: rest => d.asExpression :: asExpressionAll rest

end

theorem asExpressionAll_eq_map (ds : List Directive) : asExpressionAll ds = ds.map asExpression := by
  induction ds with
  | nil => rw [asExpressionAll, List.map_nil]
  | cons d ds ih => rw [asExpressionAll, ih, List.map_cons]

variable {names : String → Prop} {directions : Binary64 → Prop} {d : Directive}

theorem worded_writtenDirection (x : Binary64) :
    ∀ d ∈ writtenDirection x, d.Worded Value.IsUnquoted := by
  unfold writtenDirection
  split
  next => simp
  next =>
    have hfloat : (constant (.float x)).Worded Value.IsUnquoted := .constant trivial
    simpa using hfloat

theorem Unmarked.worded (h : d.Unmarked IsCallName directions) :
    d.asExpression.Worded Value.IsUnquoted := by
  induction h with
  | column hword hname => exact .column hword (by simp_all)
  | constant h => exact .constant h
  | call hword hname h ih =>
      rw [asExpression, asExpressionAll_eq_map]
      exact .call hword hname (List.forall_mem_map.2 ih)
  | group h ih =>
      rw [asExpression]
      exact .group ih
  | unary op h ih =>
      rw [asExpression]
      exact .unary op ih
  | binary op ha hb iha ihb =>
      rw [asExpression]
      exact .binary op iha ihb
  | clause c h ih =>
      obtain ⟨hword, hname⟩ := isWord_clauseWord c
      rw [asExpression]
      exact .call hword hname (List.forall_mem_singleton.2 ih)
  | order h hdirection ih =>
      obtain ⟨hword, hname⟩ := isWord_order
      rw [asExpression]
      exact .call hword hname (List.forall_mem_cons.2 ⟨ih, worded_writtenDirection _⟩)

/-! ## Tokens -/

/-- The tokens of a call, with the token that its name is anywhere else. -/
def callTokens (name : String) (arguments : List (List Token)) : List Token :=
  .ofWord name :: .symbol .openParen ::
    ([.symbol .comma].intercalate arguments ++ [.symbol .closeParen])

mutual

/-- The tokens that the notation of a tree of any shape is read as. -/
def spelling : Directive → List Token
  | column name => [.ofWord name]
  | constant value => value.reread.tokens
  | call name arguments => callTokens name (spellingAll arguments)
  | group inner => .symbol .openParen :: (inner.spelling ++ [.symbol .closeParen])
  | unary op operand => .symbol op.sign :: operand.spelling
  | binary op left right => left.spelling ++ .symbol op.sign :: right.spelling
  | clause c inner => callTokens c.word [inner.spelling]
  | order key x =>
    callTokens "order" (key.spelling :: (writtenDirection x).map fun d => d.reread.tokens)
  | distinct | all => []

def spellingAll : List Directive → List (List Token)
  | [] => []
  | d :: rest => d.spelling :: spellingAll rest

end

theorem spellingAll_eq_map (ds : List Directive) : spellingAll ds = ds.map spelling := by
  induction ds with
  | nil => rw [spellingAll, List.map_nil]
  | cons d ds ih => rw [spellingAll, ih, List.map_cons]

theorem tokens_call {name : String} (hname : IsCallName name) (arguments : List Directive) :
    (call name arguments).tokens = callTokens name (arguments.map tokens) := by
  rw [tokens, tokensAll_eq_map, callTokens, Token.ofWord_of_notMem hname]

/-- A tree whose calls can be read is read as an expression. -/
theorem Unmarked.tokens_reread (h : d.Unmarked IsCallName directions) :
    d.asExpression.reread.tokens = d.spelling := by
  induction h with
  | column hword hname => rfl
  | constant h => rfl
  | call hword hname h ih =>
      rw [asExpression, asExpressionAll_eq_map, reread, rereadAll_eq_map, tokens_call hname,
        spelling, spellingAll_eq_map, List.map_map, List.map_map]
      exact congrArg _ (List.map_congr_left ih)
  | group h ih => rw [asExpression, reread, tokens, ih, spelling]
  | unary op h ih => rw [asExpression, reread, tokens, ih, spelling]
  | binary op ha hb iha ihb => rw [asExpression, reread, tokens, iha, ihb, spelling]
  | clause c h ih =>
      rw [asExpression, reread, rereadAll_eq_map, tokens_call (isWord_clauseWord c).2,
        List.map_map, List.map_singleton, Function.comp_apply, ih, spelling]
  | order h hdirection ih =>
      rw [asExpression, reread, rereadAll_eq_map, tokens_call isWord_order.2, List.map_map,
        List.map_cons, Function.comp_apply, ih, spelling]
      rfl

theorem spells_constant {v : Value} (h : v.IsUnquoted) : Spells Delimits v.text v.reread.tokens := by
  have hspells := spells_render (isLegible_reread h)
  rwa [render_reread_compact] at hspells

theorem opens_constant {v : Value} (h : v.IsUnquoted) : Opens v.text := by
  have hopens := (isLegible_reread h).opens
  rwa [render_reread_compact] at hopens

theorem Unmarked.opens (h : d.Unmarked names directions) : Opens (d.render .compact) := by
  induction h with
  | column hword hname =>
      rw [render]
      exact hword.opens
  | constant h =>
      rw [render]
      exact opens_constant h
  | call hword hname h ih =>
      rw [render, List.append_assoc]
      exact hword.opens.append _
  | group h ih =>
      rw [render]
      exact ⟨'(', _, rfl, by decide⟩
  | unary op h ih =>
      rw [render]
      have hop : Opens (op.symbol .compact).toList := by
        cases op <;> exact ⟨_, _, rfl, by decide⟩
      exact hop.append _
  | binary op ha hb iha ihb =>
      rw [render, List.append_assoc]
      exact iha.append _
  | clause c h ih =>
      rw [render, clauseText, List.append_assoc]
      exact (isWord_clauseWord c).1.opens.append _
  | order h hdirection ih =>
      rw [render_order, List.append_assoc]
      exact isWord_order.1.opens.append _

theorem spells_clause {c : Clause} {inner : Directive}
    (h : Spells Delimits (inner.render .compact) inner.spelling) :
    Spells Delimits ((clause c inner).render .compact) (clause c inner).spelling := by
  have hinner : ∀ d ∈ [inner], Spells Delimits (d.render .compact) d.spelling :=
    List.forall_mem_singleton.2 h
  have hcall := spells_arguments (isWord_clauseWord c).1 hinner
  rw [spelling, render]
  simpa [render, renderAll_eq_map, clauseText, callTokens] using hcall

theorem spells_order {key : Directive} {x : Binary64}
    (h : Spells Delimits (key.render .compact) key.spelling) :
    Spells Delimits ((order key x).render .compact) (order key x).spelling := by
  have hpieces : ∀ p ∈ (key.render .compact, key.spelling) ::
      (writtenDirection x).map fun d => (x.text, d.reread.tokens), Spells Delimits p.1 p.2 := by
    refine List.forall_mem_cons.2 ⟨h, ?_⟩
    unfold writtenDirection
    split
    next => simp
    next =>
      have hdirection : Spells Delimits x.text (constant (.float x)).reread.tokens :=
        spells_constant (v := .float x) trivial
      simpa using hdirection
  have hcall := spells_call isWord_order.1 (spells_comma fun _ => True) delimits_comma hpieces
  rw [render_order, spelling]
  simp only [List.map_cons, List.map_map, Function.comp_def] at hcall
  revert hcall
  unfold writtenDirection
  split <;> simp [callTokens, List.intercalate_cons_cons]

/-- The notation of a tree of any shape has the tokens of its spelling. -/
theorem Unmarked.spells (h : d.Unmarked names directions) :
    Spells Delimits (d.render .compact) d.spelling := by
  induction h with
  | column hword hname =>
      rw [render, spelling]
      exact spells_word hword
  | constant h =>
      rw [render, spelling]
      exact spells_constant h
  | call hword hname h ih =>
      rw [spelling, spellingAll_eq_map]
      exact spells_arguments hword ih
  | group h ih =>
      rw [render, spelling]
      exact spells_group ih
  | unary op h ih =>
      rw [render, spelling]
      exact spells_unary op ih h.opens
  | binary op ha hb iha ihb =>
      rw [render, spelling]
      exact spells_binary op iha ihb hb.opens
  | clause c h ih => exact spells_clause ih
  | order h hdirection ih => exact spells_order ih

/-! ## Texts -/

theorem render_call (name : String) (arguments : List Directive) :
    (call name arguments).render .compact =
      name.toList ++ '(' :: ", ".toList.intercalate (arguments.map (render .compact)) ++ [')'] := by
  rw [render, renderAll_eq_map]

theorem render_clause (c : Clause) (inner : Directive) :
    (clause c inner).render .compact = (call c.word [inner]).render .compact := by
  rw [render_call, List.map_singleton, List.intercalate_singleton, render]
  rfl

theorem render_order_of_isUpward (key : Directive) {x : Binary64} (h : IsUpward x) :
    (order key x).render .compact = (call "order" [key]).render .compact := by
  have hone : x.equal .one = true := h
  rw [render_call, List.map_singleton, List.intercalate_singleton, render_order, if_pos hone,
    List.append_nil]

theorem writtenDirection_of_isUpward {x : Binary64} (h : IsUpward x) : writtenDirection x = [] :=
  if_pos h

/-- Below the root only a direction makes a difference to the text. -/
theorem Unmarked.render_asExpression (h : d.Unmarked names IsUpward) :
    d.asExpression.render .compact = d.render .compact := by
  induction h with
  | column hword hname => rfl
  | constant h => rfl
  | call hword hname h ih =>
      have harguments := List.map_congr_left ih
      rw [asExpression, asExpressionAll_eq_map, render_call, List.map_map, Function.comp_def,
        harguments, render_call]
  | group h ih => rw [asExpression, render, ih, render]
  | unary op h ih => rw [asExpression, render, ih, render]
  | binary op ha hb iha ihb => rw [asExpression, render, iha, ihb, render]
  | clause c h ih =>
      rw [asExpression, render_clause, render_call, render_call, List.map_singleton, ih,
        List.map_singleton]
  | order h hdirection ih =>
      rw [asExpression, writtenDirection_of_isUpward hdirection, render_order_of_isUpward _ hdirection,
        render_call, render_call, List.map_singleton, ih, List.map_singleton]

theorem length_intercalate_map {α : Type} (separator : List Char) {xs : List α}
    {f g : α → List Char} (h : ∀ x ∈ xs, (f x).length ≤ (g x).length) :
    (separator.intercalate (xs.map f)).length ≤ (separator.intercalate (xs.map g)).length ∧
      ((separator.intercalate (xs.map g)).length ≤ (separator.intercalate (xs.map f)).length →
        ∀ x ∈ xs, (g x).length ≤ (f x).length) := by
  induction xs with
  | nil => simp
  | cons x xs ih =>
      obtain ⟨hx, hxs⟩ := List.forall_mem_cons.1 h
      obtain ⟨hle, hge⟩ := ih hxs
      cases xs with
      | nil => simpa using hx
      | cons y ys =>
          simp only [List.map_cons, List.intercalate_cons_cons, List.length_append] at hle hge ⊢
          refine ⟨by omega, ?_⟩
          intro hlength
          exact List.forall_mem_cons.2 ⟨by omega, hge (by omega)⟩

/-- The text of a tree gets no shorter by the calls, and keeps its length
only without directions. -/
theorem Unmarked.length_render (h : d.Unmarked names directions) :
    (d.render .compact).length ≤ (d.asExpression.render .compact).length ∧
      ((d.asExpression.render .compact).length ≤ (d.render .compact).length →
        d.Unmarked names IsUpward) := by
  induction h with
  | column hword hname => exact ⟨Nat.le_refl _, fun _ => .column hword hname⟩
  | constant h => exact ⟨Nat.le_refl _, fun _ => .constant h⟩
  | @call name arguments hword hname h ih =>
      obtain ⟨hle, hge⟩ := length_intercalate_map ", ".toList fun d hd => (ih d hd).1
      rw [asExpression, asExpressionAll_eq_map, render_call, render_call, List.map_map]
      simp only [List.length_append, List.length_cons, Function.comp_def]
      refine ⟨by omega, ?_⟩
      intro hlength
      have harguments := hge (by omega)
      exact .call hword hname fun d hd => (ih d hd).2 (harguments d hd)
  | group h ih =>
      rw [asExpression, render, render]
      simp only [List.length_append, List.length_cons]
      exact ⟨by omega, fun hlength => .group (ih.2 (by omega))⟩
  | unary op h ih =>
      rw [asExpression, render, render]
      simp only [List.length_append]
      exact ⟨by omega, fun hlength => .unary op (ih.2 (by omega))⟩
  | binary op ha hb iha ihb =>
      rw [asExpression, render, render]
      simp only [List.length_append]
      exact ⟨by omega, fun hlength => .binary op (iha.2 (by omega)) (ihb.2 (by omega))⟩
  | clause c h ih =>
      rw [asExpression, render_clause, render_call, render_call]
      simp only [List.map_singleton, List.intercalate_singleton, List.length_append, List.length_cons]
      exact ⟨by omega, fun hlength => .clause c (ih.2 (by omega))⟩
  | @order key x h hdirection ih =>
      rw [asExpression]
      by_cases hx : IsUpward x
      · rw [writtenDirection_of_isUpward hx, render_order_of_isUpward _ hx, render_call, render_call]
        simp only [List.map_singleton, List.intercalate_singleton, List.length_append, List.length_cons]
        exact ⟨by omega, fun hlength => .order (ih.2 (by omega)) hx⟩
      · have hone : ¬ x.equal .one = true := hx
        have hwritten : writtenDirection x = [Directive.constant (.float x)] := if_neg hone
        rw [hwritten, render_order, if_neg hone, render_call]
        simp only [List.map_cons, List.map_nil, List.intercalate_cons_cons,
          List.intercalate_singleton, List.length_append, List.length_cons]
        have htext : ((Directive.constant (.float x)).render .compact).length = x.text.length := rfl
        have hspace : ", ".toList.length = 2 := rfl
        exact ⟨by omega, fun hlength => by omega⟩

/-! ## Items -/

/-- The directive without the direction of a sort key at its root. -/
def undirected : Directive → Directive
  | order key _ => order key .one
  | d => d

/-- What a call with one argument is read as. -/
def callItem (name : String) (argument : Directive) : Directive :=
  match Clause.ofWord? name with
  | some c => clause c argument
  | none => if name = "order" then order argument .one else call name [argument]

/-- The item that stands for the same text, with a call in place of every
clause below the root. -/
def asItem : Directive → Directive
  | clause c inner => clause c inner.asExpression
  | order key x => order key.asExpression x
  | call name [argument] => callItem name argument.asExpression
  | d => d.asExpression

/-- A call that has the name of a clause and more than one argument. -/
def IsLongClauseCall : Directive → Prop
  | call name arguments => name ∈ clauseNames ∧ 2 ≤ arguments.length
  | _ => False

theorem isUpward_one : IsUpward .one := by
  rw [IsUpward, one_eq_finite]
  rfl

theorem callItem_cases (name : String) (argument : Directive) :
    (∃ c : Clause, name = c.word ∧ callItem name argument = clause c argument) ∨
      (name = "order" ∧ callItem name argument = order argument .one) ∨
        (name ∉ clauseNames ∧ callItem name argument = call name [argument]) := by
  unfold callItem
  split
  next c hc => exact .inl ⟨c, (Clause.word_of_ofWord? hc).symm, rfl⟩
  next hnone =>
    split
    next horder => exact .inr (.inl ⟨horder, rfl⟩)
    next horder =>
      refine .inr (.inr ⟨?_, rfl⟩)
      intro hname
      have hclause := mem_clauseNames_iff.1 hname
      simp [Reader.isClauseWord, hnone, horder] at hclause

/-- An item is a clause, a sort key, a call that is read as one of them, or
an expression. -/
theorem asItem_cases (d : Directive) (hlong : ¬ d.IsLongClauseCall) :
    (∃ c e, d.asExpression = call (Clause.word c) [e] ∧ d.asItem = clause c e) ∨
      (∃ e, d.asExpression = call "order" [e] ∧ d.asItem = order e .one) ∨
        (∃ key x, d = order key x) ∨
          (d.asItem = d.asExpression ∧ ¬ d.asExpression.IsClauseCall) := by
  cases d with
  | order key x => exact .inr (.inr (.inl ⟨key, x, rfl⟩))
  | clause c inner =>
      rw [asExpression]
      exact .inl ⟨c, _, rfl, rfl⟩
  | call name arguments =>
      match arguments with
      | [] =>
          rw [asExpression, asExpressionAll_eq_map]
          exact .inr (.inr (.inr ⟨rfl, fun h => h.2 rfl⟩))
      | [argument] =>
          have hcall : (call name [argument]).asExpression = call name [argument.asExpression] := by
            rw [asExpression, asExpressionAll_eq_map, List.map_singleton]
          have hitem : (call name [argument]).asItem = callItem name argument.asExpression := rfl
          rw [hcall, hitem]
          rcases callItem_cases name argument.asExpression with ⟨c, rfl, h⟩ | ⟨rfl, h⟩ | ⟨hname, h⟩
          · exact .inl ⟨c, _, rfl, h⟩
          · exact .inr (.inl ⟨_, rfl, h⟩)
          · exact .inr (.inr (.inr ⟨h, fun hclause => hname hclause.1⟩))
      | first :: second :: rest =>
          rw [asExpression]
          exact .inr (.inr (.inr ⟨rfl, fun h => hlong ⟨h.1, by simp⟩⟩))
  | _ => exact .inr (.inr (.inr ⟨rfl, id⟩))

theorem leftmostName?_asExpression {name : String} (h : d.asExpression.leftmostName? = some name) :
    d.leftmostName? = some name ∨ name ∈ clauseNames := by
  induction d using leftmostName?.induct with
  | case1 column => exact .inl h
  | case2 call arguments =>
      rw [asExpression] at h
      exact .inl h
  | case3 op left right ih =>
      rw [asExpression] at h
      exact ih h
  | case4 d hcolumn hcall hbinary =>
      cases d with
      | clause c inner =>
          rw [asExpression] at h
          cases h
          exact .inr (by cases c <;> decide)
      | order key x =>
          rw [asExpression] at h
          cases h
          exact .inr (by decide)
      | column name' => exact (hcolumn _ rfl).elim
      | call name' arguments => exact (hcall _ _ rfl).elim
      | binary op a b => exact (hbinary _ _ _ rfl).elim
      | group | unary =>
          rw [asExpression] at h
          cases h
      | _ => cases h

section

variable (h : d.Unmarked IsCallName directions) (hlong : ¬ d.IsLongClauseCall)
include h hlong

theorem Unmarked.isWritable
    (hleft : ∀ name, d.leftmostName? = some name → name ∉ ["distinct", "all"]) :
    d.asItem.IsWritable Value.IsUnquoted := by
  have hworded := h.worded
  have hargument {name : String} {e : Directive} {ds : List Directive}
      (hcall : (Directive.call name (e :: ds)).Worded Value.IsUnquoted) : e.Worded Value.IsUnquoted := by
    cases hcall with
    | call hword hname h => exact h e (by simp)
  rcases asItem_cases d hlong with ⟨c, e, he, hitem⟩ | ⟨e, he, hitem⟩ | ⟨key, x, rfl⟩ |
    ⟨hitem, hclause⟩
  · rw [hitem]
    rw [he] at hworded
    exact .clause c (hargument hworded)
  · rw [hitem]
    rw [he] at hworded
    exact .order (hargument hworded) trivial
  · rw [asExpression] at hworded
    exact .order (hargument hworded) trivial
  · rw [hitem]
    refine .expression hworded ?_ hclause
    intro name hname
    have hdisjoint : ∀ name ∈ clauseNames, name ∉ ["distinct", "all"] := by decide
    rcases leftmostName?_asExpression hname with hname | hname
    · exact hleft name hname
    · exact hdisjoint name hname

theorem Unmarked.spelled_asItem : d.asItem.spelled = d.asExpression.reread.regroup := by
  rcases asItem_cases d hlong with ⟨c, e, he, hitem⟩ | ⟨e, he, hitem⟩ | ⟨key, x, rfl⟩ |
    ⟨hitem, -⟩
  · rw [hitem, he]
    rfl
  · have hone : Binary64.one.equal .one = true := isUpward_one
    rw [hitem, he, spelled, if_pos hone]
    rfl
  · have hdirection : (Value.float x).reread.regroup = (Value.float x).reread :=
      regroup_of_fits (fits_reread_float x)
    rw [asItem, spelled, asExpression, writtenDirection]
    split
    next => rfl
    next =>
      rw [← hdirection]
      rfl
  · rw [hitem]
    exact h.worded.spelled_eq

end

theorem render_asItem (hlong : ¬ d.IsLongClauseCall) (horder : ∀ key x, d ≠ order key x) :
    d.asItem.render .compact = d.asExpression.render .compact := by
  rcases asItem_cases d hlong with ⟨c, e, he, hitem⟩ | ⟨e, he, hitem⟩ | ⟨key, x, rfl⟩ |
    ⟨hitem, -⟩
  · rw [hitem, he, render_clause]
  · rw [hitem, he, render_order_of_isUpward e isUpward_one]
  · exact (horder key x rfl).elim
  · rw [hitem]

theorem undirected_eq_self (horder : ∀ key x, d ≠ order key x) : d.undirected = d := by
  cases d with
  | order key x => exact (horder key x rfl).elim
  | _ => rfl

/-- The text of an item is kept without directions below its root. -/
theorem Unmarked.render_asItem_eq (h : d.undirected.Unmarked names IsUpward)
    (hlong : ¬ d.IsLongClauseCall) : d.asItem.render .compact = d.render .compact := by
  by_cases horder : ∃ key x, d = Directive.order key x
  · obtain ⟨key, x, rfl⟩ := horder
    cases h with
    | order h hdirection =>
        rw [asItem, render_order, render_order, h.render_asExpression]
  · have hne : ∀ key x, d ≠ Directive.order key x := fun key x hd => horder ⟨key, x, hd⟩
    rw [render_asItem hlong hne]
    rw [undirected_eq_self hne] at h
    exact h.render_asExpression

/-- With directions below its root it gets longer. -/
theorem Unmarked.length_render_asItem (h : d.Unmarked names directions)
    (hlong : ¬ d.IsLongClauseCall) :
    (d.render .compact).length ≤ (d.asItem.render .compact).length ∧
      ((d.asItem.render .compact).length ≤ (d.render .compact).length →
        d.undirected.Unmarked names IsUpward) := by
  by_cases horder : ∃ key x, d = Directive.order key x
  · obtain ⟨key, x, rfl⟩ := horder
    cases h with
    | order h hdirection =>
        obtain ⟨hle, hge⟩ := h.length_render
        rw [asItem, render_order, render_order]
        simp only [List.length_append, List.length_cons]
        exact ⟨by omega, fun hlength => .order (hge (by omega)) isUpward_one⟩
  · have hne : ∀ key x, d ≠ Directive.order key x := fun key x hd => horder ⟨key, x, hd⟩
    rw [render_asItem hlong hne, undirected_eq_self hne]
    exact h.length_render

end Directive

end QueryNotation
