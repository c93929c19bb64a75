import QueryNotation.Proofs.StatementParts

/-!
# What a statement says

An arrangement is made in one pass over the log, and names directives by
their positions. What it comes to can be said of the log itself: each
part of a statement is made of the directives with that part to play, in
the order of the log, and of several markers, limits or offsets the last
one counts. The invariant of the pass is the arrangement that a log adds
to the one that is there before it.
-/

namespace QueryNotation

open Number

/-! ## The parts of a log -/

namespace Role

/-- Expressions are selected, and so are grouping keys. -/
def isSelected : Role → Bool
  | value | clause .grouping => true
  | _ => false

def isClause (c : Clause) : Role → Bool
  | clause c' => c' == c
  | _ => false

def isOrder : Role → Bool
  | order _ => true
  | _ => false

/-- Whether a marker asks for distinct rows. -/
def marker? : Role → Option Bool
  | distinct => some true
  | all => some false
  | _ => none

end Role

/-- The directives of a log with a part to play. -/
def partOf (isPart : Role → Bool) (log : List Directive) : List Directive :=
  log.filter fun d => isPart d.role

/-- Their texts in a statement. -/
def textsOf (isPart : Role → Bool) (log : List Directive) : List (List Char) :=
  (partOf isPart log).map (·.render .relational)

/-- The directives with their positions in a log that starts at `start`. -/
def entriesOf (isPart : Role → Bool) (log : List Directive) (start : Nat) :
    List (Directive × Nat) :=
  (log.zipIdx start).filter fun entry => isPart entry.1.role

def positionsOf (isPart : Role → Bool) (log : List Directive) (start : Nat) : List Nat :=
  (entriesOf isPart log start).map (·.2)

/-- Whether the last marker of a log asks for distinct rows, if there is one. -/
def lastMarker? (log : List Directive) : Option Bool :=
  (log.filterMap fun d => d.role.marker?).getLast?

section

variable {isPart : Role → Bool} {log : List Directive} {start : Nat}

theorem positionsOf_cons (isPart : Role → Bool) (d : Directive) (log : List Directive)
    (start : Nat) : positionsOf isPart (d :: log) start =
      if isPart d.role then start :: positionsOf isPart log (start + 1)
      else positionsOf isPart log (start + 1) := by
  rw [positionsOf, entriesOf, List.zipIdx_cons, List.filter_cons]
  split <;> rfl

theorem lastMarker?_cons (d : Directive) (log : List Directive) :
    lastMarker? (d :: log) = (lastMarker? log).or d.role.marker? := by
  rw [lastMarker?, List.filterMap_cons, lastMarker?]
  cases d.role.marker? with
  | none => rw [Option.or_none]
  | some marker => rw [List.getLast?_cons, Option.or_some]

theorem map_fst_entriesOf (start : Nat) : (entriesOf isPart log start).map (·.1) = partOf isPart log := by
  have hlog : (log.zipIdx start).map (·.1) = log := List.zipIdx_map_fst start log
  conv => rhs; rw [← hlog]
  rw [partOf, List.filter_map]
  rfl

theorem getElem?_of_mem_entriesOf {entry : Directive × Nat} (h : entry ∈ entriesOf isPart log 0) :
    log[entry.2]? = some entry.1 :=
  List.mem_zipIdx_iff_getElem?.1 (List.mem_filter.1 h).1

theorem lt_length_of_mem_positionsOf {position : Nat} (h : position ∈ positionsOf isPart log 0) :
    position < log.length := by
  obtain ⟨entry, hentry, rfl⟩ := List.mem_map.1 h
  exact (List.getElem?_eq_some_iff.1 (getElem?_of_mem_entriesOf hentry)).1

end

/-! ## The arrangement of a log -/

namespace Arrangement

/-- The arrangement that a log which starts at `start` makes of an earlier
one. -/
def follow (a : Arrangement) (log : List Directive) (start : Nat) : Arrangement where
  distinct := (lastMarker? log).getD a.distinct
  values := a.values ++ (positionsOf Role.isSelected log start).toArray
  filters := a.filters ++ (positionsOf (Role.isClause .filter) log start).toArray
  groupings := a.groupings ++ (positionsOf (Role.isClause .grouping) log start).toArray
  groupFilters := a.groupFilters ++ (positionsOf (Role.isClause .groupFilter) log start).toArray
  orders := a.orders ++ (positionsOf Role.isOrder log start).toArray
  limit := (positionsOf (Role.isClause .limit) log start).getLast?.or a.limit
  offset := (positionsOf (Role.isClause .offset) log start).getLast?.or a.offset

theorem follow_nil (a : Arrangement) (start : Nat) : a.follow [] start = a := by
  simp [follow, positionsOf, entriesOf, lastMarker?]

/-- One directive more at the front of the log. -/
theorem follow_place (a : Arrangement) (d : Directive) (log : List Directive) (start : Nat) :
    (a.place (d, start)).follow log (start + 1) = a.follow (d :: log) start := by
  simp only [follow, positionsOf_cons, lastMarker?_cons]
  cases d with
  | clause c inner =>
      cases c <;> simp [place, Directive.role, Role.isSelected, Role.isClause, Role.isOrder,
        Role.marker?, List.getLast?_cons]
  | _ =>
      simp [place, Directive.role, Role.isSelected, Role.isClause, Role.isOrder, Role.marker?]

theorem foldl_place (log : List Directive) (a : Arrangement) (start : Nat) :
    (log.zipIdx start).foldl place a = a.follow log start := by
  induction log generalizing a start with
  | nil => exact (a.follow_nil start).symm
  | cons d log ih => rw [List.zipIdx_cons, List.foldl_cons, ih, follow_place]

theorem ofLog_eq (log : List Directive) : ofLog log = follow {} log 0 := foldl_place log {} 0

end Arrangement

namespace Select

variable {isPart : Role → Bool} {log : Array Directive}

/-! ## Looking up positions -/

/-- Entries of a log are found at their positions. -/
theorem pick_entries {entries : List (Directive × Nat)}
    (h : ∀ entry ∈ entries, log[entry.2]? = some entry.1) :
    pick log (entries.map (·.2)).toArray = entries.map (·.1) := by
  unfold pick
  induction entries with
  | nil => rfl
  | cons entry entries ih =>
      obtain ⟨hentry, hentries⟩ := List.forall_mem_cons.1 h
      have hrest := ih hentries
      rw [List.toList_toArray] at hrest ⊢
      rw [List.map_cons, List.filterMap_cons, hentry, hrest, List.map_cons]

theorem getElem?_of_mem_entriesOf {entry : Directive × Nat}
    (h : entry ∈ entriesOf isPart log.toList 0) : log[entry.2]? = some entry.1 := by
  rw [← Array.getElem?_toList]
  exact QueryNotation.getElem?_of_mem_entriesOf h

theorem members_positionsOf :
    members log (positionsOf isPart log.toList 0).toArray = textsOf isPart log.toList := by
  rw [members, positionsOf, pick_entries fun entry => getElem?_of_mem_entriesOf, map_fst_entriesOf,
    textsOf]

/-- The last position is that of the last directive. -/
theorem members_getLast? :
    members log (positionsOf isPart log.toList 0).getLast?.toArray =
      (textsOf isPart log.toList).getLast?.toList := by
  have hlast : ∀ entry ∈ (entriesOf isPart log.toList 0).getLast?.toList,
      log[entry.2]? = some entry.1 := by
    intro entry hentry
    rw [Option.mem_toList] at hentry
    exact getElem?_of_mem_entriesOf (List.mem_of_getLast? hentry)
  have hpick := pick_entries hlast
  rw [members, textsOf, ← map_fst_entriesOf 0, positionsOf]
  simp only [List.getLast?_map]
  cases hentry : (entriesOf isPart log.toList 0).getLast? with
  | none => rfl
  | some entry =>
      rw [hentry] at hpick
      exact congrArg (List.map (·.render .relational)) hpick

/-! ## The statement of a log -/

/-- The text of the last clause of a kind. -/
def lastTextOf (c : Clause) (log : List Directive) : Option (List Char) :=
  (textsOf (Role.isClause c) log).getLast?

/-- One condition stands as it is, and of several each is in parentheses. -/
def condition : List (List Char) → List Char
  | [text] => text
  | texts => " AND ".toList.intercalate (texts.map fun text => '(' :: text ++ [')'])

/-- The sort keys of a log, each with the word for the sign of its direction. -/
def sortTexts (log : List Directive) : List (List Char) :=
  log.filterMap fun
    | .order key direction => some (key.render .relational ++
        if direction.isPositive then " ASC".toList
        else if direction.isNegative then " DESC".toList else [])
    | _ => none

/-- A keyword with a text for the members, or nothing if there are none. -/
def introduced (keyword : String) (members : List (List Char)) (text : List Char) : List Char :=
  if members = [] then [] else led keyword text

/-- The bounds on the rows: an offset alone needs a limit, the largest. -/
def boundTexts : Option (List Char) → Option (List Char) → List Char
  | none, none => []
  | some limit, none => led " LIMIT " limit
  | none, some offset => led " LIMIT " (led "9223372036854775807" (led " OFFSET " offset))
  | some limit, some offset => led " LIMIT " (limit ++ led " OFFSET " offset)

/-- The statement that a log describes. -/
def described (table : String) (log : List Directive) : List Char :=
  let selected := textsOf Role.isSelected log
  let filters := textsOf (Role.isClause .filter) log
  let groupings := textsOf (Role.isClause .grouping) log
  let groupFilters := textsOf (Role.isClause .groupFilter) log
  led "SELECT" (if lastMarker? log = some true then " DISTINCT".toList else []) ++
    led " " (if selected = [] then ['*'] else ", ".toList.intercalate selected) ++
    led " FROM \"" (table.toList ++ ['"']) ++
    introduced " WHERE " filters (condition filters) ++
    introduced " GROUP BY " groupings (", ".toList.intercalate groupings) ++
    introduced " HAVING " groupFilters (condition groupFilters) ++
    introduced " ORDER BY " (sortTexts log) (", ".toList.intercalate (sortTexts log)) ++
    boundTexts (lastTextOf .limit log) (lastTextOf .offset log)

theorem led_append (keyword : String) (text rest : List Char) :
    led keyword text ++ rest = led keyword (text ++ rest) := List.append_assoc _ _ _

theorem part_eq (keyword : String) (join : List (List Char) → List Char)
    (members : List (List Char)) :
    part keyword join members = introduced keyword members (join members) := by
  cases members <;> rfl

/-- The parentheses around all members and those in the separators are the
parentheses around each. -/
theorem parenthesized_eq {members : List (List Char)} (h : members ≠ []) :
    '(' :: ") AND (".toList.intercalate members ++ [')'] =
      " AND ".toList.intercalate (members.map fun text => '(' :: text ++ [')']) := by
  induction members with
  | nil => exact (h rfl).elim
  | cons text members ih =>
      cases members with
      | nil => simp
      | cons next members =>
          have hrest := ih (List.cons_ne_nil _ _)
          rw [List.map_cons] at hrest ⊢
          rw [List.map_cons, List.intercalate_cons_cons, List.intercalate_cons_cons, ← hrest]
          simp

theorem conjunction_eq {members : List (List Char)} (h : members ≠ []) :
    conjunction members = condition members := by
  match members, h with
  | [], h => exact (h rfl).elim
  | [text], _ => rfl
  | text :: next :: rest, h => exact parenthesized_eq h

theorem part_conjunction (keyword : String) (members : List (List Char)) :
    part keyword conjunction members = introduced keyword members (condition members) := by
  rw [part_eq, introduced, introduced]
  by_cases h : members = []
  · rw [if_pos h, if_pos h]
  · rw [if_neg h, if_neg h, conjunction_eq h]

theorem sortKeys_eq (log : List Directive) :
    (partOf Role.isOrder log).map sortKey = sortTexts log := by
  unfold partOf sortTexts
  induction log with
  | nil => rfl
  | cons d log ih =>
      cases d with
      | order key direction =>
          rw [List.filter_cons_of_pos rfl, List.map_cons, ih, List.filterMap_cons]
          rfl
      | _ =>
          rw [List.filter_cons_of_neg Bool.false_ne_true, ih, List.filterMap_cons]

theorem isSome_getLast?_positionsOf (isPart : Role → Bool) (log : List Directive) (start : Nat) :
    (positionsOf isPart log start).getLast?.isSome = (textsOf isPart log).getLast?.isSome := by
  rw [textsOf, ← map_fst_entriesOf start, positionsOf]
  simp only [List.getLast?_map, Option.isSome_map]

theorem toDigits_maxRows : Nat.toDigits 10 maxRows = "9223372036854775807".toList := by
  decide +kernel

theorem part_commaJoined (keyword : String) (members : List (List Char)) :
    part keyword commaJoined members =
      introduced keyword members (", ".toList.intercalate members) := part_eq _ _ _

theorem part_commaJoined_singleton (keyword : String) (text : List Char) :
    part keyword commaJoined [text] = led keyword text := by
  rw [part_commaJoined, introduced, if_neg (List.cons_ne_nil _ _), List.intercalate_singleton]

theorem boundTexts_eq (limit offset : Option (List Char)) :
    part " LIMIT " commaJoined (if !limit.isSome && offset.isSome then [Nat.toDigits 10 maxRows]
        else limit.toList) ++ part " OFFSET " commaJoined offset.toList =
      boundTexts limit offset := by
  cases limit with
  | none =>
      cases offset with
      | none => rfl
      | some offset =>
          have hcondition : (!(none : Option (List Char)).isSome && (some offset).isSome) = true := rfl
          rw [if_pos hcondition, Option.toList_some, part_commaJoined_singleton,
            part_commaJoined_singleton, toDigits_maxRows, boundTexts, led_append]
          rfl
  | some limit =>
      have hcondition : ¬ (!(some limit).isSome && offset.isSome) = true := Bool.false_ne_true
      rw [if_neg hcondition, Option.toList_some, part_commaJoined_singleton]
      cases offset with
      | none =>
          rw [boundTexts]
          exact List.append_nil _
      | some offset =>
          rw [Option.toList_some, part_commaJoined_singleton, boundTexts, led_append]

theorem rowBounds_positionsOf (log : Array Directive) :
    rowBounds log (positionsOf (Role.isClause .limit) log.toList 0).getLast?
        (positionsOf (Role.isClause .offset) log.toList 0).getLast? =
      boundTexts (lastTextOf .limit log.toList) (lastTextOf .offset log.toList) := by
  rw [rowBounds_eq, members_getLast?, members_getLast?, ← Option.not_isSome,
    isSome_getLast?_positionsOf, isSome_getLast?_positionsOf]
  exact boundTexts_eq _ _

/-- The statement for the arrangement of a log is the one that it describes. -/
theorem statement_ofLog (table : String) (log : Array Directive) :
    statement table log (.ofLog log.toList) = described table log.toList := by
  have hselection (members : List (List Char)) : selection members =
      if members = [] then ['*'] else ", ".toList.intercalate members := by
    cases members <;> rfl
  have hselect (marker : Option Bool) (text : List Char) :
      led (if marker.getD false then "SELECT DISTINCT " else "SELECT ") text =
        led "SELECT" (if marker = some true then " DISTINCT".toList else []) ++ led " " text := by
    cases marker with
    | none => rfl
    | some distinct => cases distinct <;> rfl
  have horders : (pick log (positionsOf Role.isOrder log.toList 0).toArray).map sortKey =
      sortTexts log.toList := by
    rw [positionsOf, pick_entries fun entry => getElem?_of_mem_entriesOf, map_fst_entriesOf,
      sortKeys_eq]
  have hfrom : led " FROM " (Directive.columnText table .relational) =
      led " FROM \"" (table.toList ++ ['"']) := rfl
  rw [Arrangement.ofLog_eq]
  simp only [statement, Arrangement.follow, Array.empty_append, Option.or_none, members_positionsOf,
    part_conjunction, part_commaJoined, horders, rowBounds_positionsOf, hselection, hselect, hfrom,
    described]

end Select

/-- All the positions that an arrangement names. -/
def Arrangement.positions (a : Arrangement) : List Nat :=
  a.values.toList ++ a.filters.toList ++ a.groupings.toList ++ a.groupFilters.toList ++
    a.orders.toList ++ a.limit.toList ++ a.offset.toList

theorem Arrangement.lt_length_of_mem_positions {log : List Directive} {position : Nat}
    (h : position ∈ (ofLog log).positions) : position < log.length := by
  have hlast {isPart : Role → Bool} {position : Nat}
      (h : (positionsOf isPart log 0).getLast? = some position) : position < log.length :=
    lt_length_of_mem_positionsOf (List.mem_of_getLast? h)
  rw [ofLog_eq] at h
  simp only [positions, follow, Array.empty_append, Option.or_none, List.mem_append,
    Option.mem_toList, List.toList_toArray] at h
  rcases h with (((((h | h) | h) | h) | h) | h) | h
  all_goals first | exact lt_length_of_mem_positionsOf h | exact hlast h

/-- The statement of a built query is the one that its log describes, and its
arrangement names no position outside the log. -/
theorem render_relational_eq_described {q : Query} (h : q.Built) :
    q.render .relational = Select.described q.table q.directives ∧
      ∀ position ∈ q.arranged.positions, position < q.directives.length := by
  rw [h.arranged_eq]
  refine ⟨?_, fun position => Arrangement.lt_length_of_mem_positions⟩
  rw [Query.render, h.arranged_eq]
  exact Select.statement_ofLog q.table q.log

/-- Every kind of directive, some of them twice, and a read in between. -/
def mixedQuery : Query :=
  (((Query.new "t").appendAll
    [.order (.column "a") (-.one), .distinct, .clause .filter (.column "b"),
      .clause .limit (.constant (.integer 1)), .clause .grouping (.column "a"), .all]).classified.appendAll
    [.call "count" [], .clause .filter (.column "c"), .clause .groupFilter (.column "d"),
      .clause .limit (.constant (.integer 2)), .clause .offset (.constant (.integer 3)), .distinct])

theorem mixedQuery_described :
    mixedQuery.Built ∧
      (mixedQuery.render .relational = Select.described mixedQuery.table mixedQuery.directives ∧
        ∀ position ∈ mixedQuery.arranged.positions, position < mixedQuery.directives.length) ∧
      mixedQuery.text .relational =
        "SELECT DISTINCT \"a\", count() FROM \"t\" WHERE (\"b\") AND (\"c\") GROUP BY \"a\" " ++
          "HAVING \"d\" ORDER BY \"a\" DESC LIMIT 2 OFFSET 3" := by
  have hbuilt : mixedQuery.Built :=
    (((Query.Built.new "t").appendAll _).classified).appendAll _
  exact ⟨hbuilt, render_relational_eq_described hbuilt, by decide +kernel⟩

end QueryNotation
