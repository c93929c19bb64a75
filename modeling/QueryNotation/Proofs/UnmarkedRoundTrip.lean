import QueryNotation.Proofs.AcceptedItems
import QueryNotation.Proofs.NestedClauses
import QueryNotation.Proofs.NestingBound
import QueryNotation.Proofs.NotationRoundTrip
import QueryNotation.Proofs.OperandPositions

/-!
# Which built queries keep their notation

A query without markers and strings may still not be read back with the
same notation. A call can be named like a token that is no name: then the
notation is refused, since the place between the tokens allows no
parenthesis. A sort key below the root is read as a call, and loses its
text if it has a direction. And the tree that is read may be too costly.
If no item starts with a call named like a marker, there are no other
reasons.
-/

namespace QueryNotation

open BinaryOperator Number

namespace Directive

variable {names : String → Prop} {directions : Binary64 → Prop} {d : Directive}

/-! ## Calls that the places allow -/

theorem Unmarked.tokens_regroup (h : d.Unmarked IsCallName directions) :
    d.asExpression.reread.regroup.tokens = d.spelling := by
  rw [isSequential_tokens.regroup (h.worded.reread fun _ hv => hv).isExpression]
  exact h.tokens_reread

theorem Unmarked.run_spelling (h : d.Unmarked IsCallName directions) (depth : Nat) :
    ∃ p, (Place.mk depth .operand).run d.spelling = some p ∧ p.IsAfter depth := by
  rw [← h.tokens_regroup]
  exact (derives_tokens (fits_normal h.worded) (isLegible_normal h.worded)).run depth

/-- A name with a meaning of its own is complete, and takes no arguments. -/
theorem run_callTokens {name : String} {arguments : List (List Token)} {depth : Nat} {p : Place}
    (h : (Place.mk depth .operand).run (callTokens name arguments) = some p) :
    IsCallName name ∧
      ∃ q, (Place.start (depth + 1)).run ([.symbol .comma].intercalate arguments) = some q := by
  by_cases hname : IsCallName name
  · refine ⟨hname, ?_⟩
    have hword : (Place.mk depth .operand).step (.word name) = some ⟨depth, .word⟩ := by
      simp [Place.step]
    rw [callTokens, Token.ofWord_of_notMem hname, Place.run, hword, Option.bind_some] at h
    obtain ⟨q, hq, -⟩ := Place.run_append_eq_some h
    exact ⟨q, hq⟩
  · have hkeyword : name ∈ ["true", "false", "and", "or"] := Decidable.not_not.1 hname
    simp only [List.mem_cons, List.not_mem_nil, or_false] at hkeyword
    rcases hkeyword with rfl | rfl | rfl | rfl <;> cases h

theorem run_first_argument {ts : List Token} {parts : List (List Token)} {p q : Place}
    (h : p.run ([.symbol .comma].intercalate (ts :: parts)) = some q) :
    ∃ r, p.run ts = some r := by
  cases parts with
  | nil => exact ⟨q, by simpa using h⟩
  | cons us parts =>
      rw [List.intercalate_cons_cons, List.append_assoc] at h
      obtain ⟨r, hr, -⟩ := Place.run_append_eq_some h
      exact ⟨r, hr⟩

/-- If the places allow the tokens of a tree, then its calls can be read. -/
theorem Unmarked.of_run (h : d.Unmarked names directions) {depth : Nat} {p : Place}
    (hrun : (Place.mk depth .operand).run d.spelling = some p) : d.Unmarked IsCallName directions := by
  induction h generalizing depth p with
  | column hword hname => exact .column hword hname
  | constant h => exact .constant h
  | @call name arguments hword hname h ih =>
      rw [spelling, spellingAll_eq_map] at hrun
      obtain ⟨hcall, q, hq⟩ := run_callTokens hrun
      have hdepth : ∀ ts ∈ arguments.map spelling, ∀ p,
          (Place.start (depth + 1)).run ts = some p → p.depth = depth + 1 := by
        intro ts hts p hp
        obtain ⟨d, hd, rfl⟩ := List.mem_map.1 hts
        obtain ⟨r, hr, hafter⟩ := (ih d hd hp).run_spelling (depth + 1)
        cases hp.symm.trans hr
        exact hafter.depth_eq
      have harguments := Place.exists_run_of_intercalate hdepth hq
      refine .call hword hcall ?_
      intro d hd
      obtain ⟨r, hr⟩ := harguments _ (List.mem_map_of_mem hd)
      exact ih d hd hr
  | group h ih =>
      rw [spelling, Place.run] at hrun
      obtain ⟨q, hq, -⟩ := Place.run_append_eq_some hrun
      exact .group (ih hq)
  | unary op h ih =>
      rw [spelling, Place.run, Place.step_sign op.ofToken?_sign] at hrun
      exact .unary op (ih hrun)
  | binary op ha hb iha ihb =>
      rw [spelling] at hrun
      obtain ⟨q, hq, hrest⟩ := Place.run_append_eq_some hrun
      have hleft := iha hq
      obtain ⟨r, hr, hafter⟩ := hleft.run_spelling depth
      cases hq.symm.trans hr
      rw [Place.run, hafter.step_operator op.ofToken?_sign] at hrest
      exact .binary op hleft (ihb hrest)
  | clause c h ih =>
      rw [spelling] at hrun
      obtain ⟨-, q, hq⟩ := run_callTokens hrun
      obtain ⟨r, hr⟩ := run_first_argument hq
      exact .clause c (ih hr)
  | order h hdirection ih =>
      rw [spelling] at hrun
      obtain ⟨-, q, hq⟩ := run_callTokens hrun
      obtain ⟨r, hr⟩ := run_first_argument hq
      exact .order (ih hr) hdirection

/-- A leftmost name that is one of a marker is that of a call. -/
theorem Unmarked.spelling_of_marker (h : d.Unmarked names directions) {name : String}
    (hleft : d.leftmostName? = some name) (hmarker : name ∈ ["distinct", "all"]) :
    ∃ ts, d.spelling = .word name :: .symbol .openParen :: ts := by
  induction h with
  | @column name' hword hname =>
      cases hleft
      have hcolumn : ∀ name ∈ ["distinct", "all"], name ∈ ["true", "false", "distinct", "all"] := by
        decide
      exact (hname (hcolumn _ hmarker)).elim
  | @call name' arguments hword hname h ih =>
      cases hleft
      have hcall : ∀ name ∈ ["distinct", "all"], IsCallName name := by
        unfold IsCallName
        decide
      rw [spelling, callTokens, Token.ofWord_of_notMem (hcall _ hmarker)]
      exact ⟨_, rfl⟩
  | binary op ha hb iha ihb =>
      obtain ⟨ts, hts⟩ := iha hleft
      rw [spelling, hts]
      exact ⟨_, rfl⟩
  | _ => cases hleft

/-- Where an item may stand, the leftmost name is none of a marker as well. -/
theorem Unmarked.of_run_item (h : d.Unmarked names directions) {p : Place}
    (hrun : (Place.start 0).run d.spelling = some p) :
    d.Unmarked IsCallName directions ∧ p.depth = 0 ∧
      ∀ name, d.leftmostName? = some name → name ∉ ["distinct", "all"] := by
  obtain ⟨q, hq, hdepth⟩ := Place.run_operand_of_item hrun
  have hcalls := h.of_run hq
  obtain ⟨r, hr, hafter⟩ := hcalls.run_spelling 0
  cases hq.symm.trans hr
  refine ⟨hcalls, hdepth ▸ hafter.depth_eq, ?_⟩
  intro name hleft hmarker
  obtain ⟨ts, hts⟩ := h.spelling_of_marker hleft hmarker
  have hstep : (Place.start 0).step (.word name) = some ⟨0, .operator⟩ := by
    simp only [Place.start, Place.step, hmarker, and_self, reduceIte]
  rw [hts, Place.run, hstep] at hrun
  cases hrun

/-! ## Items -/

theorem Unmarked.isWrittenAs (h : d.Unmarked IsCallName directions) (hlong : ¬ d.IsLongClauseCall)
    (hleft : ∀ name, d.leftmostName? = some name → name ∉ ["distinct", "all"]) :
    IsWrittenAs d d.asExpression.reread.regroup := by
  have hwritten := (h.isWritable hlong hleft).isWrittenAs
  rw [h.spelled_asItem hlong] at hwritten
  exact ⟨h.tokens_regroup ▸ h.spells, hwritten.legible, hwritten.fits, hwritten.head⟩

theorem Unmarked.readAs (h : d.Unmarked IsCallName directions) (hlong : ¬ d.IsLongClauseCall)
    (hleft : ∀ name, d.leftmostName? = some name → name ∉ ["distinct", "all"])
    (hfinite : ∀ key x, d = .order key x → (Value.float x).IsFinite) :
    ReadAs d.asExpression.reread.regroup d.asItem.normal := by
  rw [← h.spelled_asItem hlong]
  apply (h.isWritable hlong hleft).readAs
  intro key x hitem
  rcases asItem_cases d hlong with ⟨c, e, -, hclause⟩ | ⟨e, -, horder⟩ | ⟨key, x, rfl⟩ | ⟨hsame, -⟩
  · rw [hclause] at hitem
    cases hitem
  · rw [horder] at hitem
    cases hitem
    rw [one_eq_finite]
    trivial
  · cases hitem
    exact hfinite key x rfl
  · rw [hsame] at hitem
    have hexpression := h.worded.isExpression
    rw [hitem] at hexpression
    cases hexpression

theorem Unmarked.of_undirected (h : d.undirected.Unmarked names IsUpward) :
    d.Unmarked names fun _ => True := by
  cases d with
  | order key x =>
      cases h with
      | order h hdirection => exact .order (h.mono (fun _ hn => hn) fun _ _ => trivial) trivial
  | _ => exact h.mono (fun _ hn => hn) fun _ _ => trivial

/-- What has to hold of an item for its notation to be kept. -/
structure IsKept (d : Directive) : Prop where
  /-- No call has a name that is read as something else, and no sort key
  below the root a direction. -/
  unmarked : d.undirected.Unmarked IsCallName IsUpward
  shallow : d.asExpression.reread.regroup.cost ≤ maxDepth

end Directive

/-! ## Queries -/

namespace Query

variable {q r : Query} {names : String → Prop} {directions : Binary64 → Prop}

/-- The query that the notation of a query of any shape is read as. -/
def reading (q : Query) : Query :=
  (Query.new q.table).appendAll (q.directives.map fun d => d.asItem.normal)

theorem directives_reading (q : Query) :
    q.reading.directives = q.directives.map fun d => d.asItem.normal := by
  rw [reading, directives_appendAll]
  rfl

theorem table_reading (q : Query) : q.reading.table = q.table := table_appendAll _ _

theorem length_text_compact (q : Query) : (q.text .compact).toList.length =
    q.table.toList.length + ([','].intercalate (q.directives.map (Directive.render .compact))).length +
      2 := by
  have hrender : q.render .compact = q.table.toList ++
      '[' :: [','].intercalate (q.directives.map (Directive.render .compact)) ++ [']'] := rfl
  rw [text, String.toList_ofList, hrender]
  simp only [List.length_append, List.length_cons, List.length_nil]
  omega

/-- An accepted notation has calls that can be read. -/
theorem unmarked_of_parse (htable : HasTokens q.table [.word q.table])
    (h : ∀ d ∈ q.directives, d.Unmarked names directions) (hparse : parse (q.text .compact) = .ok r) :
    ∀ d ∈ q.directives, d.Unmarked IsCallName directions ∧
      ∀ name, d.leftmostName? = some name → name ∉ ["distinct", "all"] := by
  obtain ⟨n, rs, hitems⟩ := derivesItems_of_parse htable (fun d hd => (h d hd).spells) hparse
  obtain ⟨p, hp, -⟩ := hitems.run
  have hdepth : ∀ ts ∈ q.directives.map Directive.spelling, ∀ p,
      (Place.start 0).run ts = some p → p.depth = 0 := by
    intro ts hts p hp
    obtain ⟨d, hd, rfl⟩ := List.mem_map.1 hts
    exact ((h d hd).of_run_item hp).2.1
  have hrun := Place.exists_run_of_intercalate hdepth hp
  intro d hd
  obtain ⟨p, hp⟩ := hrun _ (List.mem_map_of_mem hd)
  obtain ⟨hcalls, -, hleft⟩ := (h d hd).of_run_item hp
  exact ⟨hcalls, hleft⟩

section

variable (h : ∀ d ∈ q.directives, d.Unmarked IsCallName directions)
  (hlong : ∀ d ∈ q.directives, ¬ d.IsLongClauseCall)
  (hleft : ∀ d ∈ q.directives, ∀ name, d.leftmostName? = some name → name ∉ ["distinct", "all"])
include h hlong hleft

/-- With finite directions only the nesting limit is in the way. -/
theorem parse_reading (htable : HasTokens q.table [.word q.table])
    (hfinite : ∀ key x, .order key x ∈ q.directives → (Value.float x).IsFinite) :
    (Directive.largestCost (q.directives.map fun d => d.asExpression.reread.regroup) ≤ maxDepth →
      parse (q.text .compact) = .ok q.reading) ∧
    (maxDepth < Directive.largestCost (q.directives.map fun d => d.asExpression.reread.regroup) →
      ∃ place, parse (q.text .compact) = .error (.tooDeep place)) := by
  refine parse_of_isWrittenAs htable
    (fun d hd => (h d hd).isWrittenAs (hlong d hd) (hleft d hd)) fun d hd => ?_
  refine (h d hd).readAs (hlong d hd) (hleft d hd) ?_
  rintro key x rfl
  exact hfinite key x hd

theorem render_normal_asItem : ∀ d ∈ q.directives,
    d.asItem.normal.render .compact = d.asItem.render .compact := by
  intro d hd
  have hwritable := (h d hd).isWritable (hlong d hd) (hleft d hd)
  exact hwritable.render_normal (fun _ hv => hv) fun v _ => render_reread_compact v

/-- The notation of what was read is no shorter, and the same only without
directions below the roots. -/
theorem text_reading_iff : q.reading.text .compact = q.text .compact ↔
    ∀ d ∈ q.directives, d.undirected.Unmarked IsCallName IsUpward := by
  have hrender := render_normal_asItem h hlong hleft
  constructor
  · intro htext d hd
    have htexts : q.reading.directives.map (Directive.render .compact) =
        q.directives.map fun d => d.asItem.render .compact := by
      rw [directives_reading, List.map_map]
      exact List.map_congr_left hrender
    have hlength := length_text_compact q.reading
    rw [htext, length_text_compact, table_reading, htexts] at hlength
    have hitems := (Directive.length_intercalate_map [',']
      fun d hd => ((h d hd).length_render_asItem (hlong d hd)).1).2
    exact ((h d hd).length_render_asItem (hlong d hd)).2 (hitems (by omega) d hd)
  · intro hupward
    refine text_compact_eq q.table_reading q.directives_reading ?_
    intro d hd
    rw [hrender d hd]
    exact (hupward d hd).render_asItem_eq (hlong d hd)

end

/-- An item is kept, if a query with the same notation is read. -/
theorem isKept_of_parse (htable : HasTokens q.table [.word q.table])
    (h : ∀ d ∈ q.directives, d.Unmarked names directions)
    (hlong : ∀ d ∈ q.directives, ¬ d.IsLongClauseCall)
    (hfinite : ∀ key x, .order key x ∈ q.directives → (Value.float x).IsFinite)
    (hparse : parse (q.text .compact) = .ok r) (htext : r.text .compact = q.text .compact) :
    ∀ d ∈ q.directives, d.IsKept := by
  have hread := unmarked_of_parse htable h hparse
  have hcalls : ∀ d ∈ q.directives, d.Unmarked IsCallName directions := fun d hd => (hread d hd).1
  have hleft : ∀ d ∈ q.directives, ∀ name, d.leftmostName? = some name →
      name ∉ ["distinct", "all"] := fun d hd => (hread d hd).2
  obtain ⟨hok, hdeep⟩ := parse_reading hcalls hlong hleft htable hfinite
  rcases Nat.lt_or_ge maxDepth (Directive.largestCost
    (q.directives.map fun d => d.asExpression.reread.regroup)) with hlimit | hlimit
  · obtain ⟨place, herror⟩ := hdeep hlimit
    cases hparse.symm.trans herror
  · cases hparse.symm.trans (hok hlimit)
    have hupward := (text_reading_iff hcalls hlong hleft).1 htext
    have hcost := Directive.largestCost_le_iff.1 hlimit
    intro d hd
    exact ⟨hupward d hd, hcost _ (List.mem_map_of_mem hd)⟩

/-- The notation of a query without markers and strings is read as a query
with the same notation exactly if it keeps each item. Left out are calls
with several arguments that are named like clauses, items that start with
a call named like a marker, and directions at the root that are not
finite. -/
theorem reread_iff_isKept (htable : HasTokens q.table [.word q.table])
    (h : ∀ d ∈ q.directives, d.Unmarked (fun _ => True) fun _ => True)
    (hlong : ∀ d ∈ q.directives, ¬ d.IsLongClauseCall)
    (hleft : ∀ d ∈ q.directives, ∀ name, d.leftmostName? = some name → name ∉ ["distinct", "all"])
    (hfinite : ∀ key x, .order key x ∈ q.directives → (Value.float x).IsFinite) :
    (∃ r, parse (q.text .compact) = .ok r ∧ r.text .compact = q.text .compact) ↔
      ∀ d ∈ q.directives, d.IsKept := by
  constructor
  · rintro ⟨r, hparse, htext⟩
    exact isKept_of_parse htable h hlong hfinite hparse htext
  · intro hkept
    have hcalls : ∀ d ∈ q.directives, d.Unmarked IsCallName fun _ => True :=
      fun d hd => (hkept d hd).unmarked.of_undirected
    have hcost : Directive.largestCost
        (q.directives.map fun d => d.asExpression.reread.regroup) ≤ maxDepth :=
      Directive.largestCost_le_iff.2 (List.forall_mem_map.2 fun d hd => (hkept d hd).shallow)
    refine ⟨q.reading, (parse_reading hcalls hlong hleft htable hfinite).1 hcost, ?_⟩
    exact (text_reading_iff hcalls hlong hleft).2 fun d hd => (hkept d hd).unmarked

/-- A clause in a sum, a call that is read as a clause, and a sort key with
a direction around one without. -/
def clausedItems : List Directive :=
  [.clause .filter (.binary .plus (.clause .grouping (.column "a")) (.constant (.integer (-5)))),
    .call "by" [.column "a"],
    .order (.group (.order (.column "a") .one)) (.finite true ⟨0x4000000000000000, two_lt_finiteCount⟩)]

def clausedQuery : Query := (Query.new "t").appendAll clausedItems

theorem directives_clausedQuery : clausedQuery.directives = clausedItems := by
  rw [clausedQuery, directives_appendAll]
  rfl

theorem undirected_clausedItems :
    ∀ d ∈ clausedItems, d.undirected.Unmarked IsCallName IsUpward := by
  have hcolumn : (Directive.column "a").Unmarked IsCallName IsUpward :=
    .column (isWord_of_all "a" (by decide)) (by decide)
  have hsum : (Directive.clause .filter (.binary .plus (.clause .grouping (.column "a"))
      (.constant (.integer (-5))))).Unmarked IsCallName IsUpward :=
    .clause _ (.binary _ (.clause _ hcolumn) (.constant trivial))
  have hcall : (Directive.call "by" [.column "a"]).Unmarked IsCallName IsUpward := by
    obtain ⟨hword, hname⟩ := isWord_clauseWord .grouping
    exact .call hword hname (List.forall_mem_singleton.2 hcolumn)
  have hkey : (Directive.order (.group (.order (.column "a") .one)) .one).Unmarked IsCallName IsUpward :=
    .order (.group (.order hcolumn Directive.isUpward_one)) Directive.isUpward_one
  exact List.forall_mem_cons.2 ⟨hsum, List.forall_mem_cons.2 ⟨hcall, List.forall_mem_singleton.2 hkey⟩⟩

theorem isKept_clausedItems : ∀ d ∈ clausedItems, d.IsKept := by
  have hcost : ∀ d ∈ clausedItems, d.asExpression.reread.regroup.cost ≤ maxDepth := by
    decide +kernel
  exact fun d hd => ⟨undirected_clausedItems d hd, hcost d hd⟩

theorem clausedQuery_kept :
    (HasTokens clausedQuery.table [.word clausedQuery.table] ∧
      (∀ d ∈ clausedQuery.directives, d.Unmarked (fun _ => True) fun _ => True) ∧
      (∀ d ∈ clausedQuery.directives, ¬ d.IsLongClauseCall) ∧
      (∀ d ∈ clausedQuery.directives, ∀ name, d.leftmostName? = some name →
        name ∉ ["distinct", "all"]) ∧
      ∀ key x, .order key x ∈ clausedQuery.directives → (Value.float x).IsFinite) ∧
    ∃ r, parse (clausedQuery.text .compact) = .ok r ∧
      r.text .compact = clausedQuery.text .compact := by
  have htable : HasTokens clausedQuery.table [.word clausedQuery.table] :=
    hasTokens_word_iff.2 ⟨isWord_of_all "t" (by decide +kernel), by decide⟩
  have hunmarked : ∀ d ∈ clausedQuery.directives, d.Unmarked (fun _ => True) fun _ => True := by
    rw [directives_clausedQuery]
    intro d hd
    exact (undirected_clausedItems d hd).of_undirected.mono (fun _ _ => trivial) fun _ _ => trivial
  have hlong : ∀ d ∈ clausedQuery.directives, ¬ d.IsLongClauseCall := by
    rw [directives_clausedQuery]
    simp [clausedItems, Directive.IsLongClauseCall]
  have hleft : ∀ d ∈ clausedQuery.directives, ∀ name, d.leftmostName? = some name →
      name ∉ ["distinct", "all"] := by
    rw [directives_clausedQuery]
    change ∀ d ∈ clausedItems, ∀ name ∈ d.leftmostName?, name ∉ ["distinct", "all"]
    decide +kernel
  have hfinite : ∀ key x, .order key x ∈ clausedQuery.directives → (Value.float x).IsFinite := by
    rw [directives_clausedQuery]
    rintro key x hd
    simp [clausedItems] at hd
    rw [hd.2]
    trivial
  refine ⟨⟨htable, hunmarked, hlong, hleft, hfinite⟩,
    (reread_iff_isKept htable hunmarked hlong hleft hfinite).2 ?_⟩
  rw [directives_clausedQuery]
  exact isKept_clausedItems

end Query

/-! ## Items that are not kept -/

namespace Directive

/-- The items of the documented law. Their trees have at most as many levels
as the limit. -/
structure IsDocumented (d : Directive) : Prop where
  unmarked : d.Unmarked (fun _ => True) fun _ => True
  short : ¬ d.IsLongClauseCall
  nested : d.height ≤ maxDepth

variable {names : String → Prop} {directions : Binary64 → Prop} {d : Directive}

theorem unmarked_grouped (n : Nat) : (grouped n).Unmarked names directions := by
  induction n with
  | zero => exact .column (isWord_of_all "a" (by decide)) (by decide)
  | succ n ih => exact .group ih

theorem Unmarked.lengthen (h : d.Unmarked names directions) (op : BinaryOperator) (n : Nat) :
    (d.lengthen op n).Unmarked names directions := by
  induction n with
  | zero => exact h
  | succ n ih => exact .binary op ih (unmarked_grouped 0)

/-- Calls with the name of a literal, an operator and a marker, a direction
below the root, and a sum with more operators to count than levels. -/
def exceptions : List Directive :=
  [.call "true" [.column "a"],
    .binary .multiply (.column "a") (.call "and" [.column "a"]),
    .call "distinct" [.column "a"],
    .clause .filter (.order (.column "a") (.finite true ⟨0x4000000000000000, two_lt_finiteCount⟩)),
    .binary .plus (.lengthen .plus 29 (.column "a")) (.grouped 99)]

theorem isDocumented_exceptions : ∀ d ∈ exceptions, d.IsDocumented := by
  have hcolumn : (column "a").Unmarked (fun _ => True) fun _ => True := unmarked_grouped 0
  have hcall {name : String} (hword : IsWord name) :
      (call name [.column "a"]).Unmarked (fun _ => True) fun _ => True :=
    .call hword trivial (List.forall_mem_singleton.2 hcolumn)
  have hunmarked : ∀ d ∈ exceptions, d.Unmarked (fun _ => True) fun _ => True := by
    refine List.forall_mem_cons.2 ⟨hcall (isWord_of_all _ (by decide +kernel)), ?_⟩
    refine List.forall_mem_cons.2
      ⟨.binary _ hcolumn (hcall (isWord_of_all _ (by decide +kernel))), ?_⟩
    refine List.forall_mem_cons.2 ⟨hcall (isWord_of_all _ (by decide +kernel)), ?_⟩
    refine List.forall_mem_cons.2 ⟨.clause _ (.order hcolumn trivial), ?_⟩
    exact List.forall_mem_singleton.2 (.binary _ (hcolumn.lengthen _ 29) (unmarked_grouped 99))
  have hnested : ∀ d ∈ exceptions, d.height ≤ maxDepth := by decide +kernel
  intro d hd
  refine ⟨hunmarked d hd, ?_, hnested d hd⟩
  have hshort : ∀ d ∈ exceptions, ¬ d.IsLongClauseCall := by
    simp [exceptions, IsLongClauseCall]
  exact hshort d hd

/-- The exceptions are not kept, save for the one that starts like a marker. -/
theorem exceptions_cases : ∀ d ∈ exceptions,
    (∃ name, d.leftmostName? = some name ∧ name ∈ ["distinct", "all"]) ∨ ¬ d.IsKept := by
  refine List.forall_mem_cons.2 ⟨.inr ?_, List.forall_mem_cons.2 ⟨.inr ?_, List.forall_mem_cons.2
    ⟨.inl ⟨"distinct", rfl, by decide⟩, List.forall_mem_cons.2 ⟨.inr ?_,
      List.forall_mem_singleton.2 (.inr ?_)⟩⟩⟩⟩
  · rintro ⟨hunmarked, -⟩
    cases hunmarked with
    | call hword hname h => exact hname (by decide)
  · rintro ⟨hunmarked, -⟩
    cases hunmarked with
    | binary op ha hb =>
        cases hb with
        | call hword hname h => exact hname (by decide)
  · rintro ⟨hunmarked, -⟩
    cases hunmarked with
    | clause c h =>
        cases h with
        | order h hdirection =>
            revert hdirection
            unfold IsUpward
            decide +kernel
  · rintro ⟨-, hshallow⟩
    revert hshallow
    decide +kernel

end Directive

theorem Query.forall_mem_single {table : String} {d : Directive} {p : Directive → Prop} :
    (∀ e ∈ ((new table).append d).directives, p e) ↔ p d := by
  rw [directives_append]
  exact List.forall_mem_singleton

/-- The law does not hold as it is documented. -/
theorem exceptions_not_read_back : HasTokens "t" [.word "t"] ∧ ∀ d ∈ Directive.exceptions,
    d.IsDocumented ∧
      ¬ ∃ r, Query.parse (((Query.new "t").append d).text .compact) = .ok r ∧
        r.text .compact = ((Query.new "t").append d).text .compact := by
  have htable : HasTokens "t" [.word "t"] :=
    hasTokens_word_iff.2 ⟨isWord_of_all "t" (by decide +kernel), by decide⟩
  refine ⟨htable, fun d hd => ?_⟩
  have hdocumented := Directive.isDocumented_exceptions d hd
  refine ⟨hdocumented, ?_⟩
  rintro ⟨r, hparse, htext⟩
  have hunmarked : ∀ e ∈ ((Query.new "t").append d).directives,
      e.Unmarked (fun _ => True) fun _ => True := Query.forall_mem_single.2 hdocumented.unmarked
  have hshort : ∀ e ∈ ((Query.new "t").append d).directives, ¬ e.IsLongClauseCall :=
    Query.forall_mem_single.2 hdocumented.short
  rcases Directive.exceptions_cases d hd with ⟨name, hleft, hmarker⟩ | hnot
  · have hread := Query.unmarked_of_parse htable hunmarked hparse
    exact (Query.forall_mem_single.1 hread).2 name hleft hmarker
  · have hroot : ∀ e ∈ ((Query.new "t").append d).directives, ∀ key x, e ≠ .order key x := by
      have hexceptions : ∀ d ∈ Directive.exceptions, ∀ key x, d ≠ .order key x := by
        simp [Directive.exceptions]
      exact Query.forall_mem_single.2 (hexceptions d hd)
    have hfinite : ∀ key x, .order key x ∈ ((Query.new "t").append d).directives →
        (Value.float x).IsFinite := fun key x hx => (hroot _ hx key x rfl).elim
    exact hnot (Query.forall_mem_single.1
      (Query.isKept_of_parse htable hunmarked hshort hfinite hparse htext))

end QueryNotation
