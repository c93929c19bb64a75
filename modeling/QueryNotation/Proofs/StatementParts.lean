import QueryNotation.Query

/-!
# What a statement depends on

A directive has a part to play in a statement, and a text. The arrangement
of a log depends on the parts alone, and the statement on the parts and
the texts. A query that was built by its operations has the arrangement
of its log, whether or not it is kept.
-/

namespace QueryNotation

open Number

/-! ## Parts -/

/-- What a directive is for in a statement. -/
inductive Role where
  | value
  | distinct
  | all
  | clause (clause : Clause)
  | order (direction : Binary64)

def Directive.role : Directive → Role
  | .column _ | .constant _ | .call _ _ | .group _ | .unary _ _ | .binary _ _ _ => .value
  | .distinct => .distinct
  | .all => .all
  | .clause c _ => .clause c
  | .order _ direction => .order direction

theorem Arrangement.place_congr {d e : Directive} (h : d.role = e.role) (a : Arrangement)
    (position : Nat) : a.place (d, position) = a.place (e, position) := by
  cases d with
  | clause c inner =>
      cases e with
      | clause c' inner' =>
          cases h
          cases c <;> rfl
      | _ => cases h
  | _ => cases e <;> cases h <;> rfl

theorem Arrangement.foldl_place_congr {ds es : List Directive}
    (h : ds.map Directive.role = es.map Directive.role) (a : Arrangement) (start : Nat) :
    (ds.zipIdx start).foldl place a = (es.zipIdx start).foldl place a := by
  induction ds generalizing es a start with
  | nil =>
      cases es with
      | nil => rfl
      | cons e es => cases h
  | cons d ds ih =>
      cases es with
      | nil => cases h
      | cons e es =>
          rw [List.map_cons, List.map_cons, List.cons.injEq] at h
          rw [List.zipIdx_cons, List.zipIdx_cons, List.foldl_cons, List.foldl_cons,
            place_congr h.1]
          exact ih h.2 _ _

theorem Arrangement.ofLog_congr {ds es : List Directive}
    (h : ds.map Directive.role = es.map Directive.role) : ofLog ds = ofLog es :=
  foldl_place_congr h {} 0

/-! ## The directives that a statement shows -/

namespace Select

variable {log : Array Directive}

/-- The directives that the statement for an arranged log is made of. -/
def shown (log : Array Directive) (a : Arrangement) : List Directive :=
  pick log a.values ++ pick log a.filters ++ pick log a.groupings ++ pick log a.groupFilters ++
    pick log a.orders ++ pick log a.limit.toArray ++ pick log a.offset.toArray

theorem pick_map (f : Directive → Directive) (log : Array Directive) (positions : Array Nat) :
    pick (log.map f) positions = (pick log positions).map f := by
  rw [pick, pick, List.map_filterMap]
  refine congrArg (fun view => positions.toList.filterMap view) (funext fun position => ?_)
  rw [Array.getElem?_map]

theorem shown_map (f : Directive → Directive) (log : Array Directive) (a : Arrangement) :
    shown (log.map f) a = (shown log a).map f := by
  simp only [shown, pick_map, List.map_append]

theorem mem_of_mem_pick {d : Directive} {positions : Array Nat} (h : d ∈ pick log positions) :
    d ∈ log.toList := by
  obtain ⟨position, -, hposition⟩ := List.mem_filterMap.1 h
  exact Array.mem_toList_iff.2 (Array.mem_of_getElem? hposition)

theorem mem_of_mem_shown {d : Directive} {a : Arrangement} (h : d ∈ shown log a) :
    d ∈ log.toList := by
  simp only [shown, List.mem_append] at h
  rcases h with (((((h | h) | h) | h) | h) | h) | h <;> exact mem_of_mem_pick h

theorem sortKey_congr {d e : Directive} (hrole : d.role = e.role)
    (hrender : d.render .relational = e.render .relational) : sortKey d = sortKey e := by
  unfold sortKey
  rw [hrender]
  cases d <;> cases e <;> cases hrole <;> rfl

theorem rowBounds_eq (log : Array Directive) (limit offset : Option Nat) :
    rowBounds log limit offset =
      part " LIMIT " commaJoined (if limit.isNone && offset.isSome then [Nat.toDigits 10 maxRows]
        else members log limit.toArray) ++
      part " OFFSET " commaJoined (members log offset.toArray) := rfl

/-- Replacing directives keeps the statement if it keeps their parts and the
texts of those that are shown. -/
theorem statement_map {f : Directive → Directive} {a : Arrangement}
    (hrole : ∀ d ∈ shown log a, (f d).role = d.role)
    (hrender : ∀ d ∈ shown log a, (f d).render .relational = d.render .relational)
    (table : String) : statement table (log.map f) a = statement table log a := by
  have hmembers (positions : Array Nat) (hsub : ∀ d ∈ pick log positions, d ∈ shown log a) :
      members (log.map f) positions = members log positions := by
    rw [members, members, pick_map, List.map_map]
    exact List.map_congr_left fun d hd => hrender d (hsub d hd)
  have hkeys : (pick (log.map f) a.orders).map sortKey = (pick log a.orders).map sortKey := by
    rw [pick_map, List.map_map]
    refine List.map_congr_left fun d hd => ?_
    have hd' : d ∈ shown log a := by simp [shown, hd]
    exact sortKey_congr (hrole d hd') (hrender d hd')
  unfold statement
  rw [rowBounds_eq, rowBounds_eq, hkeys,
    hmembers a.values fun d hd => by simp [shown, hd],
    hmembers a.filters fun d hd => by simp [shown, hd],
    hmembers a.groupings fun d hd => by simp [shown, hd],
    hmembers a.groupFilters fun d hd => by simp [shown, hd],
    hmembers a.limit.toArray fun d hd => by simp [shown, hd],
    hmembers a.offset.toArray fun d hd => by simp [shown, hd]]

end Select

/-! ## Built queries -/

/-- The queries that the operations on queries build. -/
inductive Query.Built : Query → Prop where
  | new (table : String) : Built (.new table)
  | setTable {q : Query} (h : Built q) (table : String) : Built (q.setTable table)
  | append {q : Query} (h : Built q) (directive : Directive) : Built (q.append directive)
  | classified {q : Query} (h : Built q) : Built q.classified

/-- An arrangement that is kept is the arrangement of the log. -/
theorem Query.Built.arranged_eq {q : Query} (h : q.Built) :
    q.arranged = .ofLog q.directives := by
  induction h with
  | new table => rfl
  | setTable h table ih => exact ih
  | append h directive ih => rfl
  | classified h ih => exact ih

theorem Query.Built.appendAll {q : Query} (h : q.Built) (ds : List Directive) :
    (q.appendAll ds).Built := by
  induction ds generalizing q with
  | nil => exact h
  | cons d ds ih => exact ih (h.append d)

@[simp] theorem Query.table_appendAll (q : Query) (ds : List Directive) :
    (q.appendAll ds).table = q.table := by
  induction ds generalizing q with
  | nil => rfl
  | cons d ds ih => exact ih (q.append d)

namespace Query

def shown (q : Query) : List Directive := Select.shown q.log q.arranged

theorem mem_directives_of_mem_shown {q : Query} {d : Directive} (h : d ∈ q.shown) :
    d ∈ q.directives := Select.mem_of_mem_shown h

section

variable {q r : Query} {f : Directive → Directive}

theorem log_eq_map (hdirectives : r.directives = q.directives.map f) : r.log = q.log.map f := by
  apply Array.toList_inj.1
  rw [Array.toList_map]
  exact hdirectives

theorem arranged_eq_of_role (hq : q.Built) (hr : r.Built)
    (hdirectives : r.directives = q.directives.map f)
    (hrole : ∀ d ∈ q.directives, (f d).role = d.role) : r.arranged = q.arranged := by
  rw [hr.arranged_eq, hq.arranged_eq, hdirectives]
  apply Arrangement.ofLog_congr
  rw [List.map_map]
  exact List.map_congr_left hrole

/-- Replacing directives keeps the notation if it keeps the notation of each. -/
theorem text_compact_eq (htable : r.table = q.table)
    (hdirectives : r.directives = q.directives.map f)
    (hrender : ∀ d ∈ q.directives, (f d).render .compact = d.render .compact) :
    r.text .compact = q.text .compact := by
  have htexts : r.directives.map (·.render .compact) = q.directives.map (·.render .compact) := by
    rw [hdirectives, List.map_map]
    exact List.map_congr_left hrender
  refine congrArg String.ofList ?_
  change r.compactText = q.compactText
  unfold compactText
  rw [htexts, htable]

/-- Replacing directives keeps the statement if it keeps what is shown. -/
theorem text_relational_eq (hq : q.Built) (hr : r.Built) (htable : r.table = q.table)
    (hdirectives : r.directives = q.directives.map f)
    (hrole : ∀ d ∈ q.directives, (f d).role = d.role)
    (hrender : ∀ d ∈ q.shown, (f d).render .relational = d.render .relational) :
    r.text .relational = q.text .relational := by
  refine congrArg String.ofList ?_
  change Select.statement r.table r.log r.arranged = Select.statement q.table q.log q.arranged
  rw [arranged_eq_of_role hq hr hdirectives hrole, log_eq_map hdirectives, htable]
  exact Select.statement_map (fun d hd => hrole d (mem_directives_of_mem_shown hd)) hrender _

end

end Query

end QueryNotation
