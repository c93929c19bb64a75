import QueryNotation.Proofs.ItemSpelling
import QueryNotation.Proofs.QueryAcceptance

/-!
# Reading back the notation of a query

A query may hold trees of any shape. Its notation is read as trees that
follow precedence, and this can be seen in neither language. Only the
nesting limit may stand in the way, since regrouping changes how deep the
trees are to read.
-/

namespace QueryNotation

open Number

/-- The constants that a round trip keeps: no strings, and no numbers that
are not finite. -/
def Value.IsPlain (v : Value) : Prop := v.IsUnquoted ∧ v.IsFinite

namespace Query

/-- The query that the notation of a query is read as. -/
def normal (q : Query) : Query := (Query.new q.table).appendAll (q.directives.map Directive.normal)

theorem directives_normal (q : Query) : q.normal.directives = q.directives.map Directive.normal := by
  rw [normal, directives_appendAll]
  rfl

theorem table_normal (q : Query) : q.normal.table = q.table := table_appendAll _ _

theorem built_normal (q : Query) : q.normal.Built := (Built.new q.table).appendAll _

variable {q : Query}

/-- A notation that is written as expressions that stand for items is read
as these items, unless one of the expressions is too costly. -/
theorem parse_of_isWrittenAs {spelled result : Directive → Directive}
    (htable : HasTokens q.table [.word q.table])
    (hwritten : ∀ d ∈ q.directives, IsWrittenAs d (spelled d))
    (hread : ∀ d ∈ q.directives, ReadAs (spelled d) (result d)) :
    (Directive.largestCost (q.directives.map spelled) ≤ maxDepth →
      parse (q.text .compact) = .ok ((Query.new q.table).appendAll (q.directives.map result))) ∧
    (maxDepth < Directive.largestCost (q.directives.map spelled) →
      ∃ place, parse (q.text .compact) = .error (.tooDeep place)) :=
  Query.parse_of_derives (hasTokens_query htable fun d hd => (hwritten d hd).spells)
    (derivesQuery_directives hwritten hread)

/-- The items of an accepted notation are derived from the tokens of it. -/
theorem derivesItems_of_parse {r : Query} {spelling : Directive → List Token}
    (htable : HasTokens q.table [.word q.table])
    (hspells : ∀ d ∈ q.directives, Spells Delimits (d.render .compact) (spelling d))
    (h : parse (q.text .compact) = .ok r) :
    ∃ n ds, DerivesItems n ([.symbol .comma].intercalate (q.directives.map spelling)) ds := by
  obtain ⟨ts, n, htext, hderives, -⟩ := Query.parse_eq_ok h
  have hts := htext.unique (hasTokens_query htable hspells)
  cases hderives with
  | @mk us ds table hitems =>
      simp only [List.cons.injEq, true_and] at hts
      obtain ⟨rfl, -⟩ := List.append_inj' hts.2 rfl
      exact ⟨n, ds, hitems⟩

/-- With finite directions only the nesting limit is in the way. -/
theorem parse_text (htable : HasTokens q.table [.word q.table])
    (hitems : ∀ d ∈ q.directives, d.IsWritable Value.IsUnquoted)
    (hfinite : ∀ key x, .order key x ∈ q.directives → (Value.float x).IsFinite) :
    (Directive.largestCost (q.directives.map Directive.spelled) ≤ maxDepth →
      parse (q.text .compact) = .ok q.normal) ∧
    (maxDepth < Directive.largestCost (q.directives.map Directive.spelled) →
      ∃ place, parse (q.text .compact) = .error (.tooDeep place)) := by
  refine parse_of_isWrittenAs htable (fun d hd => (hitems d hd).isWrittenAs) fun d hd => ?_
  refine (hitems d hd).readAs ?_
  rintro key x rfl
  exact hfinite key x hd

theorem text_compact_normal (hitems : ∀ d ∈ q.directives, d.IsWritable Value.IsUnquoted) :
    q.normal.text .compact = q.text .compact := by
  refine text_compact_eq q.table_normal q.directives_normal ?_
  intro d hd
  exact (hitems d hd).render_normal (fun _ hv => hv) fun v _ => render_reread_compact v

theorem text_relational_normal (hq : q.Built)
    (hitems : ∀ d ∈ q.directives, d.IsWritable Value.IsUnquoted)
    (hshown : ∀ d ∈ q.shown, d.IsWritable Value.IsPlain) :
    q.normal.text .relational = q.text .relational := by
  refine text_relational_eq hq q.built_normal q.table_normal q.directives_normal
    (fun d hd => (hitems d hd).role_normal) ?_
  intro d hd
  exact (hshown d hd).render_normal (fun _ hv => hv.1) fun _ hv => render_reread .relational hv.2

end Query

/-- The notation of a query of any shape is refused for its depth, or is
read as a query with the same notation, the same statement and as many
directives. -/
theorem parse_text_eq_tooDeep_or_alike {q : Query} (hq : q.Built)
    (htable : HasTokens q.table [.word q.table])
    (hitems : ∀ d ∈ q.directives, d.IsWritable Value.IsPlain) :
    (∃ place, Query.parse (q.text .compact) = .error (.tooDeep place)) ∨
      ∃ r, Query.parse (q.text .compact) = .ok r ∧ r.text .compact = q.text .compact ∧
        r.text .relational = q.text .relational ∧
          r.directives.length = q.directives.length := by
  have hunquoted : ∀ d ∈ q.directives, d.IsWritable Value.IsUnquoted :=
    fun d hd => (hitems d hd).mono fun _ hv => hv.1
  have hfinite : ∀ key x, .order key x ∈ q.directives → (Value.float x).IsFinite := by
    intro key x hd
    cases hitems _ hd with
    | expression h => cases h
    | order h hdirection => exact hdirection.2
  obtain ⟨hok, herror⟩ := Query.parse_text htable hunquoted hfinite
  rcases Nat.lt_or_ge maxDepth
    (Directive.largestCost (q.directives.map Directive.spelled)) with hdeep | hshallow
  · exact .inl (herror hdeep)
  · refine .inr ⟨q.normal, hok hshallow, Query.text_compact_normal hunquoted, ?_, ?_⟩
    · apply Query.text_relational_normal hq hunquoted
      intro d hd
      exact hitems d (Query.mem_directives_of_mem_shown hd)
    · rw [q.directives_normal, List.length_map]

/-- A product of a sum and a negated difference, built without groups, and
a descending sort key. -/
def ungroupedQuery : Query :=
  ((Query.new "t").append
    (.binary .multiply (.binary .plus (.column "and") (.constant (.integer (-5))))
      (.unary .negative (.binary .subtract (.call "f" [.column "a"])
        (.constant (.float (.finite true ⟨0x3fe0000000000000, by decide⟩))))))).append
    (.order (.column "a") (.finite true ⟨0x4000000000000000, two_lt_finiteCount⟩))

theorem ungroupedQuery_read_back :
    (ungroupedQuery.Built ∧ HasTokens ungroupedQuery.table [.word ungroupedQuery.table] ∧
      ∀ d ∈ ungroupedQuery.directives, d.IsWritable Value.IsPlain) ∧
    ((∃ place, Query.parse (ungroupedQuery.text .compact) = .error (.tooDeep place)) ∨
      ∃ r, Query.parse (ungroupedQuery.text .compact) = .ok r ∧
        r.text .compact = ungroupedQuery.text .compact ∧
        r.text .relational = ungroupedQuery.text .relational ∧
          r.directives.length = ungroupedQuery.directives.length) := by
  have hbuilt : ungroupedQuery.Built := ((Query.Built.new "t").append _).append _
  have htable : HasTokens ungroupedQuery.table [.word ungroupedQuery.table] :=
    hasTokens_word_iff.2 ⟨isWord_of_all "t" (by decide +kernel), by decide⟩
  have hcolumn : (Directive.column "a").Worded Value.IsPlain :=
    .column (isWord_of_all "a" (by decide +kernel)) (by decide)
  have hand : (Directive.column "and").Worded Value.IsPlain :=
    .column (isWord_of_all "and" (by decide +kernel)) (by decide)
  have hcall : (Directive.call "f" [.column "a"]).Worded Value.IsPlain :=
    .call (isWord_of_all "f" (by decide +kernel)) (by decide) (by simpa using hcolumn)
  have hconstant {v : Value} (h : v.IsPlain) : (Directive.constant v).Worded Value.IsPlain :=
    .constant h
  have hitems : ∀ d ∈ ungroupedQuery.directives, d.IsWritable Value.IsPlain := by
    intro d hd
    rcases List.mem_cons.1 hd with rfl | hd
    · refine .expression (.binary _ (.binary _ hand (hconstant ⟨trivial, trivial⟩))
        (.unary _ (.binary _ hcall (hconstant ⟨trivial, trivial⟩)))) ?_ id
      rintro name ⟨⟩
      decide
    · cases List.mem_singleton.1 hd
      exact .order hcolumn ⟨trivial, trivial⟩
  exact ⟨⟨hbuilt, htable, hitems⟩, parse_text_eq_tooDeep_or_alike hbuilt htable hitems⟩

end QueryNotation
