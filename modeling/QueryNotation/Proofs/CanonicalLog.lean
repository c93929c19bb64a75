import QueryNotation.Proofs.StatementMeaning

/-!
# The order that a statement can tell

Directives fall into segments, and a statement sees how the directives of
one segment follow each other, never how those of different segments are
mixed. Of markers, limits and offsets it sees the last one only. So every
log has a canonical one: the segments one after the other, with what
counts in each.
-/

namespace QueryNotation

/-- The parts that a log falls into, in the order of the canonical log. -/
inductive Segment where
  | marker
  /-- Expressions and grouping keys, which share the list of what is selected. -/
  | selection
  | filter
  | groupFilter
  | order
  | limit
  | offset
  deriving DecidableEq, Repr

namespace Segment

def all : List Segment := [marker, selection, filter, groupFilter, order, limit, offset]

/-- Whether the last directive of the segment takes the place of the others. -/
def isSingle : Segment → Bool
  | marker | limit | offset => true
  | selection | filter | groupFilter | order => false

/-- Every segment is there once. -/
theorem flatMap_all_ite {α : Type} (s : Segment) (view : Segment → List α) :
    (all.flatMap fun t => if t = s then view t else []) = view s := by
  cases s <;> simp [all]

end Segment

def Role.segment : Role → Segment
  | distinct | all => .marker
  | value | clause .grouping => .selection
  | clause .filter => .filter
  | clause .groupFilter => .groupFilter
  | clause .limit => .limit
  | clause .offset => .offset
  | order _ => .order

/-- The directives of a log that are in a segment, in the order of the log. -/
def segmentOf (s : Segment) (log : List Directive) : List Directive :=
  partOf (fun role => role.segment == s) log

/-- Those of them that count. -/
def keptOf (s : Segment) (log : List Directive) : List Directive :=
  if s.isSingle then (segmentOf s log).getLast?.toList else segmentOf s log

/-- The last marker, what is selected, the filters, the group filters and the
sort keys, then the last limit and the last offset. -/
def canonical (log : List Directive) : List Directive :=
  Segment.all.flatMap fun s => keptOf s log

section

variable {s t : Segment} {log log' : List Directive}

/-! ## Segments of a canonical log -/

theorem mem_segmentOf {d : Directive} : d ∈ segmentOf s log ↔ d ∈ log ∧ d.role.segment = s := by
  rw [segmentOf, partOf, List.mem_filter, beq_iff_eq]

theorem segment_of_mem_keptOf {d : Directive} (h : d ∈ keptOf s log) : d.role.segment = s := by
  unfold keptOf at h
  split at h
  · exact (mem_segmentOf.1 (List.mem_of_getLast? (Option.mem_toList.1 h))).2
  · exact (mem_segmentOf.1 h).2

/-- What counts in a segment is in no other one. -/
theorem segmentOf_keptOf (s t : Segment) (log : List Directive) :
    segmentOf s (keptOf t log) = if t = s then keptOf t log else [] := by
  split
  case isTrue hts =>
    apply List.filter_eq_self.2
    intro d hd
    exact beq_iff_eq.2 ((segment_of_mem_keptOf hd).trans hts)
  case isFalse hts =>
    apply List.filter_eq_nil_iff.2
    intro d hd hs
    exact hts ((segment_of_mem_keptOf hd).symm.trans (beq_iff_eq.1 hs))

theorem segmentOf_canonical (s : Segment) (log : List Directive) :
    segmentOf s (canonical log) = keptOf s log := by
  calc
    segmentOf s (canonical log) = Segment.all.flatMap fun t => segmentOf s (keptOf t log) :=
      List.filter_flatMap ..
    _ = Segment.all.flatMap fun t => if t = s then keptOf t log else [] :=
      congrArg Segment.all.flatMap (funext fun t => segmentOf_keptOf s t log)
    _ = keptOf s log := Segment.flatMap_all_ite s fun t => keptOf t log

theorem keptOf_canonical (s : Segment) (log : List Directive) :
    keptOf s (canonical log) = keptOf s log := by
  rw [keptOf, segmentOf_canonical]
  unfold keptOf
  split
  · cases (segmentOf s log).getLast? <;> rfl
  · rfl

theorem canonical_canonical (log : List Directive) : canonical (canonical log) = canonical log :=
  congrArg Segment.all.flatMap (funext fun s => keptOf_canonical s log)

/-! ## Logs that say the same -/

/-- Two logs agree on what counts, and of the markers only on whether the last
one asks for distinct rows. -/
structure Agree (log log' : List Directive) : Prop where
  distinct : lastMarker? log = some true ↔ lastMarker? log' = some true
  kept : ∀ s ≠ .marker, keptOf s log = keptOf s log'

/-- The last marker is the last directive of its segment. -/
theorem lastMarker?_eq (log : List Directive) :
    lastMarker? log = (segmentOf .marker log).getLast?.map fun d => d.role.marker? == some true := by
  rw [lastMarker?, ← List.getLast?_map]
  apply congrArg List.getLast?
  induction log with
  | nil => rfl
  | cons d log ih =>
      rw [segmentOf, partOf, List.filterMap_cons, List.filter_cons, ih]
      cases d with
      | clause c inner => cases c <;> rfl
      | _ => rfl

theorem getLast?_segmentOf (h : keptOf s log = keptOf s log') :
    (segmentOf s log).getLast? = (segmentOf s log').getLast? := by
  unfold keptOf at h
  split at h
  · exact Option.ext fun d => by rw [← Option.mem_toList, h, Option.mem_toList]
  · exact congrArg List.getLast? h

theorem agree_canonical (log : List Directive) : Agree (canonical log) log where
  distinct := by
    rw [lastMarker?_eq, lastMarker?_eq, getLast?_segmentOf (keptOf_canonical .marker log)]
  kept s _ := keptOf_canonical s log

/-- A part that lies in a segment is a part of that segment. -/
theorem partOf_segmentOf {isPart : Role → Bool} (hpart : ∀ role, isPart role → role.segment = s)
    (log : List Directive) : partOf isPart (segmentOf s log) = partOf isPart log := by
  rw [segmentOf, partOf, partOf, partOf, List.filter_filter]
  apply List.filter_congr
  intro d _
  cases hd : isPart d.role with
  | false => rfl
  | true => rw [beq_iff_eq.2 (hpart _ hd)]; rfl

namespace Agree

theorem partOf_eq (h : Agree log log') (hmarker : s ≠ .marker) (hsingle : s.isSingle = false)
    {isPart : Role → Bool} (hpart : ∀ role, isPart role → role.segment = s) :
    partOf isPart log = partOf isPart log' := by
  have hkept := h.kept s hmarker
  unfold keptOf at hkept
  rw [hsingle] at hkept
  calc
    partOf isPart log = partOf isPart (segmentOf s log) := (partOf_segmentOf hpart log).symm
    _ = partOf isPart (segmentOf s log') := congrArg (partOf isPart) hkept
    _ = partOf isPart log' := partOf_segmentOf hpart log'

theorem textsOf_eq (h : Agree log log') (hmarker : s ≠ .marker) (hsingle : s.isSingle = false)
    {isPart : Role → Bool} (hpart : ∀ role, isPart role → role.segment = s) :
    textsOf isPart log = textsOf isPart log' :=
  congrArg (List.map fun d : Directive => d.render .relational)
    (h.partOf_eq hmarker hsingle hpart)

theorem sortTexts_eq (h : Agree log log') : Select.sortTexts log = Select.sortTexts log' := by
  have hpart : ∀ role : Role, role.isOrder → role.segment = .order
    | .order _, _ => rfl
  rw [← Select.sortKeys_eq, ← Select.sortKeys_eq]
  exact congrArg (List.map Select.sortKey) (h.partOf_eq (by decide) rfl hpart)

theorem lastTextOf_eq (h : Agree log log') {c : Clause} (hmarker : s ≠ .marker)
    (hpart : ∀ role : Role, role.isClause c ↔ role.segment = s) :
    Select.lastTextOf c log = Select.lastTextOf c log' := by
  -- Here the clauses are the whole segment, so its last directive is the last clause.
  have hsegment (log : List Directive) : partOf (Role.isClause c) log = segmentOf s log := by
    apply List.filter_congr
    intro d _
    rw [Bool.eq_iff_iff, hpart, beq_iff_eq]
  rw [Select.lastTextOf, Select.lastTextOf, textsOf, textsOf, hsegment, hsegment,
    List.getLast?_map, List.getLast?_map, getLast?_segmentOf (h.kept s hmarker)]

/-- A clause has a segment of its own, but for grouping keys. -/
theorem isClause_iff {c : Clause} (hc : c ≠ .grouping) (role : Role) :
    role.isClause c ↔ role.segment = (Role.clause c).segment := by
  cases c with
  | grouping => exact (hc rfl).elim
  | _ =>
      cases role with
      | clause c' => cases c' <;> decide
      | _ => simp [Role.isClause, Role.segment]

/-- Logs that agree describe the same statement. -/
theorem described_eq (h : Agree log log') (table : String) :
    Select.described table log = Select.described table log' := by
  have hselected : ∀ role : Role, role.isSelected → role.segment = .selection
    | .value, _ => rfl
    | .clause .grouping, _ => rfl
  have hgrouping : ∀ role : Role, role.isClause .grouping → role.segment = .selection
    | .clause .grouping, _ => rfl
  have hfilter (role : Role) := (isClause_iff (c := .filter) (by decide) role).1
  have hgroupFilter (role : Role) := (isClause_iff (c := .groupFilter) (by decide) role).1
  have hdistinct : (lastMarker? log = some true) = (lastMarker? log' = some true) :=
    propext h.distinct
  simp only [Select.described, hdistinct, h.sortTexts_eq,
    h.textsOf_eq (by decide) rfl hselected, h.textsOf_eq (by decide) rfl hgrouping,
    h.textsOf_eq (by decide) rfl hfilter, h.textsOf_eq (by decide) rfl hgroupFilter,
    h.lastTextOf_eq (by decide) (isClause_iff (c := .limit) (by decide)),
    h.lastTextOf_eq (by decide) (isClause_iff (c := .offset) (by decide))]

end Agree

/-! ## Moving and leaving out directives -/

theorem Agree.of_segmentOf
    (hlast : ∀ s, (segmentOf s log).getLast? = (segmentOf s log').getLast?)
    (hall : ∀ s, s.isSingle = false → segmentOf s log = segmentOf s log') : Agree log log' where
  distinct := by rw [lastMarker?_eq, lastMarker?_eq, hlast]
  kept s _ := by
    rw [keptOf, keptOf, hlast]
    cases hs : s.isSingle with
    | true => rfl
    | false => exact hall s hs

theorem segmentOf_append (s : Segment) (log log' : List Directive) :
    segmentOf s (log ++ log') = segmentOf s log ++ segmentOf s log' := List.filter_append ..

theorem segmentOf_cons (s : Segment) (d : Directive) (log : List Directive) :
    segmentOf s (d :: log) =
      if d.role.segment = s then d :: segmentOf s log else segmentOf s log := by
  rw [segmentOf, partOf, List.filter_cons]
  simp only [beq_iff_eq]
  rfl

/-- Neighbours of different segments may change places. -/
theorem agree_swap {d e : Directive} (h : d.role.segment ≠ e.role.segment)
    (before after : List Directive) :
    Agree (before ++ d :: e :: after) (before ++ e :: d :: after) := by
  have hsegment (s : Segment) : segmentOf s (before ++ d :: e :: after) =
      segmentOf s (before ++ e :: d :: after) := by
    rw [segmentOf_append, segmentOf_append]
    apply congrArg (segmentOf s before ++ ·)
    simp only [segmentOf_cons]
    by_cases hd : d.role.segment = s
    · have he : e.role.segment ≠ s := fun he => h (hd.trans he.symm)
      rw [if_pos hd, if_neg he, if_neg he, if_pos hd]
    · rw [if_neg hd, if_neg hd]
  apply Agree.of_segmentOf
  · exact fun s => congrArg List.getLast? (hsegment s)
  · exact fun s _ => hsegment s

/-- A marker, limit or offset may be left out if another one follows. -/
theorem agree_superseded {d e : Directive} (hsingle : d.role.segment.isSingle)
    {after : List Directive} (he : e ∈ after) (hsame : e.role.segment = d.role.segment)
    (before : List Directive) : Agree (before ++ d :: after) (before ++ after) := by
  have hother {s : Segment} (hs : d.role.segment ≠ s) :
      segmentOf s (before ++ d :: after) = segmentOf s (before ++ after) := by
    rw [segmentOf_append, segmentOf_append, segmentOf_cons, if_neg hs]
  apply Agree.of_segmentOf
  · intro s
    by_cases hs : d.role.segment = s
    · have hmem : e ∈ segmentOf s after := mem_segmentOf.2 ⟨he, hsame.trans hs⟩
      obtain ⟨first, rest, hafter⟩ := List.exists_cons_of_ne_nil (List.ne_nil_of_mem hmem)
      rw [segmentOf_append, segmentOf_append, segmentOf_cons, if_pos hs, hafter,
        List.getLast?_append, List.getLast?_append, List.getLast?_cons_cons]
    · exact congrArg List.getLast? (hother hs)
  · intro s hs
    apply hother
    rintro rfl
    exact ne_true_of_eq_false hs hsingle

end

/-! ## Statements of built queries -/

namespace Query

theorem Built.relational_eq {q : Query} (h : q.Built) :
    q.render .relational = Select.described q.table q.directives := by
  rw [render, h.arranged_eq]
  exact Select.statement_ofLog q.table q.log

theorem Built.isDistinct_eq {q : Query} (h : q.Built) :
    q.isDistinct = decide (lastMarker? q.directives = some true) := by
  rw [isDistinct, h.arranged_eq, Arrangement.ofLog_eq]
  change (lastMarker? q.directives).getD false = _
  cases lastMarker? q.directives with
  | none => rfl
  | some distinct => cases distinct <;> rfl

theorem Built.same_of_agree {q r : Query} (hq : q.Built) (hr : r.Built) (htable : q.table = r.table)
    (h : Agree q.directives r.directives) :
    q.text .relational = r.text .relational ∧ q.isDistinct = r.isDistinct := by
  constructor
  · apply congrArg String.ofList
    rw [hq.relational_eq, hr.relational_eq, htable, h.described_eq]
  · rw [hq.isDistinct_eq, hr.isDistinct_eq]
    exact decide_eq_decide.2 h.distinct

/-- The canonical log says what the log says, it is its own canonical log, and
logs that agree say the same, however they are mixed. -/
theorem same_statement_of_canonical {q r : Query} (hq : q.Built) (hr : r.Built)
    (htable : q.table = r.table) :
    (q.directives = canonical r.directives →
      q.text .relational = r.text .relational ∧ q.isDistinct = r.isDistinct) ∧
    canonical (canonical r.directives) = canonical r.directives ∧
    (Agree q.directives r.directives →
      q.text .relational = r.text .relational ∧ q.isDistinct = r.isDistinct) := by
  refine ⟨fun hcanonical => ?_, canonical_canonical _, hq.same_of_agree hr htable⟩
  apply hq.same_of_agree hr htable
  rw [hcanonical]
  exact agree_canonical _

/-- Superseded markers, limits and offsets, segments mixed, and a read in
between. -/
def interleaved : Query :=
  (((Query.new "t").appendAll
    [.clause .limit (.column "k"), .order (.column "a") (-.one), .all, .clause .filter (.column "b"),
      .clause .grouping (.column "a"), .distinct, .clause .offset (.column "m")]).classified.appendAll
    [.call "count" [], .clause .limit (.column "n"), .clause .groupFilter (.column "d"),
      .clause .filter (.column "c"), .all, .clause .offset (.column "o"), .distinct])

def sorted : Query :=
  (Query.new "t").appendAll
    [.distinct, .clause .grouping (.column "a"), .call "count" [], .clause .filter (.column "b"),
      .clause .filter (.column "c"), .clause .groupFilter (.column "d"),
      .order (.column "a") (-.one), .clause .limit (.column "n"), .clause .offset (.column "o")]

theorem sorted_same_as_interleaved :
    (sorted.Built ∧ interleaved.Built ∧ sorted.table = interleaved.table) ∧
      sorted.directives = canonical interleaved.directives ∧
      canonical (canonical interleaved.directives) = canonical interleaved.directives ∧
      sorted.text .relational = interleaved.text .relational ∧
      sorted.isDistinct = interleaved.isDistinct := by
  have hsorted : sorted.Built := (Query.Built.new "t").appendAll _
  have hinterleaved : interleaved.Built :=
    (((Query.Built.new "t").appendAll _).classified).appendAll _
  have hcanonical : sorted.directives = canonical interleaved.directives := rfl
  obtain ⟨hsame, hidempotent, -⟩ := same_statement_of_canonical hsorted hinterleaved rfl
  exact ⟨⟨hsorted, hinterleaved, rfl⟩, hcanonical, hidempotent, hsame hcanonical⟩

end Query

end QueryNotation
