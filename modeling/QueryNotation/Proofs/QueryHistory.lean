import QueryNotation.Proofs.StatementParts

/-!
# Histories of queries

A program makes queries, copies them, changes them and reads them, in any
order. A read makes an arrangement if the query holds none and leaves it
there; the copy of a query holds what the query held. Against this stands
a program that keeps no arrangement at all. The two run in step: what they
hold differs in the arrangements alone, and the answers are the same.
-/

namespace QueryNotation

/-! ## What can be done with a query -/

inductive Reading where
  | text (language : Language)
  /-- The text that a query is printed as. -/
  | display
  | isDistinct
  deriving DecidableEq, Repr

inductive Answer where
  | text (text : String)
  | flag (isDistinct : Bool)
  deriving DecidableEq, Repr

def Reading.view : Reading → Query → Answer
  | text language, q => .text (q.text language)
  | display, q => .text (q.text .compact)
  | isDistinct, q => .flag q.isDistinct

/-- The ways to come by a query that is no copy. -/
inductive Origin where
  | new (table : String)
  | default
  | collect (directives : List Directive)

def Origin.query : Origin → Query
  | new table => .new table
  | default => {}
  | collect directives => .ofDirectives directives

inductive Change where
  | setTable (table : String)
  | append (directive : Directive)
  | appendAll (directives : List Directive)

namespace Change

def apply : Change → Query → Query
  | setTable table, q => q.setTable table
  | append directive, q => q.append directive
  | appendAll directives, q => q.appendAll directives

/-- Whether the change puts anything at the end of the log. -/
def appends : Change → Bool
  | setTable _ => false
  | append _ => true
  | appendAll directives => !directives.isEmpty

end Change

/-- Queries are numbered in the order in which they were made. -/
inductive Operation where
  | create (origin : Origin)
  | clone (i : Nat)
  | change (i : Nat) (change : Change)
  | read (i : Nat) (reading : Reading)

namespace Operation

def appendsTo (i : Nat) : Operation → Bool
  | change j c => j == i && c.appends
  | _ => false

def readsFrom (i : Nat) : Operation → Bool
  | read j _ => j == i
  | _ => false

end Operation

/-! ## Programs over queries -/

/-- What a program holds for a query, and how it changes and reads it. -/
structure Holding (Object : Type) where
  hold : Query → Object
  change : Change → Object → Object
  read : Reading → Object → Answer × Object

namespace Holding

variable {Object : Type} (m : Holding Object)

/-- One operation: the answer, if it is a read, and what is held then. An
operation on a query that was not made has no effect. -/
def step : Operation → List Object → List Answer × List Object
  | .create origin, objects => ([], objects ++ [m.hold origin.query])
  | .clone i, objects => ([], objects ++ objects[i]?.toList)
  | .change i c, objects => ([], objects.modify i (m.change c))
  | .read i reading, objects =>
    (objects[i]?.toList.map fun object => (m.read reading object).1,
      objects.modify i fun object => (m.read reading object).2)

def run : List Operation → List Object → List Answer × List Object
  | [], objects => ([], objects)
  | op :: ops, objects =>
    let (answer, objects) := m.step op objects
    let (answers, objects) := run ops objects
    (answer ++ answers, objects)

/-- The answers of a whole history. -/
def answers (ops : List Operation) : List Answer := (m.run ops []).1

/-- What is held after a whole history. -/
def objects (ops : List Operation) : List Object := (m.run ops []).2

theorem run_append (ops more : List Operation) (objects : List Object) :
    m.run (ops ++ more) objects =
      ((m.run ops objects).1 ++ (m.run more (m.run ops objects).2).1,
        (m.run more (m.run ops objects).2).2) := by
  induction ops generalizing objects with
  | nil => rfl
  | cons op ops ih => simp only [List.cons_append, run, ih, List.append_assoc]

/-- What one operation does to the object that is held for query `i`. -/
def act (i : Nat) : Operation → Object → Object
  | .change j c, object => if j = i then m.change c object else object
  | .read j reading, object => if j = i then (m.read reading object).2 else object
  | _, object => object

theorem getElem?_step (op : Operation) {objects : List Object} {i : Nat} {object : Object}
    (h : objects[i]? = some object) : (m.step op objects).2[i]? = some (m.act i op object) := by
  have hlength : i < objects.length := (List.getElem?_eq_some_iff.1 h).1
  cases op with
  | create origin => exact (List.getElem?_append_left hlength).trans h
  | clone j => exact (List.getElem?_append_left hlength).trans h
  | change j c => exact (List.getElem?_modify ..).trans (congrArg _ h)
  | read j reading => exact (List.getElem?_modify ..).trans (congrArg _ h)

/-- Only the operations on a query change what is held for it. -/
theorem getElem?_run (ops : List Operation) {objects : List Object} {i : Nat} {object : Object}
    (h : objects[i]? = some object) :
    (m.run ops objects).2[i]? = some (ops.foldl (fun object op => m.act i op object) object) := by
  induction ops generalizing objects object with
  | nil => exact h
  | cons op ops ih => exact ih (m.getElem?_step op h)

end Holding

/-- A query with the number of times that its log was arranged. -/
structure Counted where
  query : Query
  arrangings : Nat := 0

namespace Counted

/-- Puts an arrangement there if there is none. -/
def arrange (c : Counted) : Counted :=
  match c.query.arrangement with
  | some _ => c
  | none => { query := { c.query with arrangement := some (.ofLog c.query.directives) },
              arrangings := c.arrangings + 1 }

/-- Queries that keep their arrangement. -/
def holding : Holding Counted where
  hold query := { query }
  change change c := { c with query := change.apply c.query }
  read reading c := (reading.view c.arrange.query, c.arrange)

theorem query_arrange (c : Counted) : c.arrange.query = c.query.classified := by
  obtain ⟨⟨table, log, arrangement⟩, arrangings⟩ := c
  cases arrangement <;> rfl

/-- A read is that of the query. -/
theorem read_eq (c : Counted) (reading : Reading) :
    ((holding.read reading c).1, (holding.read reading c).2.query) = c.query.read reading.view := by
  change (reading.view c.arrange.query, c.arrange.query) = _
  rw [query_arrange]
  rfl

end Counted

namespace Query

/-- The query with no arrangement at hand. -/
def bare (q : Query) : Query := { q with arrangement := none }

/-- Queries that never keep an arrangement. -/
def bareHolding : Holding Query where
  hold query := query
  change change q := change.apply q
  read reading q := (reading.view q, q)

/-- An arrangement that is kept is that of the whole log. -/
def IsFaithful (q : Query) : Prop :=
  q.arrangement = none ∨ q.arrangement = some (.ofLog q.directives)

end Query

/-! ## What operations do to an arrangement -/

theorem Query.arrangement_appendAll (q : Query) (ds : List Directive) :
    (q.appendAll ds).arrangement = if ds.isEmpty then q.arrangement else none := by
  induction ds generalizing q with
  | nil => rfl
  | cons d ds ih =>
      apply (ih (q.append d)).trans
      cases ds <;> rfl

theorem Origin.arrangement_query (origin : Origin) : origin.query.arrangement = none := by
  cases origin with
  | new table => rfl
  | default => rfl
  | collect ds => exact (Query.arrangement_appendAll {} ds).trans (ite_self none)

namespace Change

variable {c : Change} {q : Query}

/-- A change either drops the arrangement or leaves the log alone. -/
theorem arrangement_apply (c : Change) (q : Query) :
    (c.apply q).arrangement = if c.appends then none else q.arrangement := by
  cases c with
  | setTable table => rfl
  | append d => rfl
  | appendAll ds =>
      apply (q.arrangement_appendAll ds).trans
      cases ds <;> rfl

theorem directives_apply (h : c.appends = false) : (c.apply q).directives = q.directives := by
  cases c with
  | setTable table => rfl
  | append d => cases h
  | appendAll ds =>
      cases ds with
      | nil => rfl
      | cons d ds => cases h

theorem bare_apply (c : Change) (q : Query) : (c.apply q).bare = c.apply q.bare := by
  cases c with
  | setTable table => rfl
  | append d => rfl
  | appendAll ds =>
      change (q.appendAll ds).bare = q.bare.appendAll ds
      induction ds generalizing q with
      | nil => rfl
      | cons d ds ih => exact ih (q.append d)

end Change

theorem Origin.bare_query (origin : Origin) : origin.query.bare = origin.query := by
  have hnone := origin.arrangement_query
  cases hq : origin.query with
  | mk table log arrangement =>
      rw [hq] at hnone
      exact congrArg (Query.mk table log) hnone.symm

namespace Query.IsFaithful

variable {q : Query}

theorem arranged_eq (h : q.IsFaithful) : q.arranged = .ofLog q.directives := by
  unfold arranged
  rcases h with h | h <;> rw [h] <;> rfl

theorem classified (h : q.IsFaithful) : q.classified.IsFaithful :=
  .inr (congrArg some h.arranged_eq)

theorem apply (h : q.IsFaithful) (c : Change) : (c.apply q).IsFaithful := by
  rw [IsFaithful, c.arrangement_apply]
  cases hc : c.appends with
  | true => exact .inl rfl
  | false => rwa [Change.directives_apply hc]

/-- A query that keeps an arrangement reads like one that does not. -/
theorem view_classified (h : q.IsFaithful) (reading : Reading) :
    reading.view q.classified = reading.view q.bare := by
  have hrender (language : Language) : q.classified.render language = q.bare.render language := by
    cases language with
    | compact => rfl
    | relational => exact congrArg (Select.statement q.table q.log) h.arranged_eq
  cases reading with
  | text language => exact congrArg (fun text => Answer.text (.ofList text)) (hrender language)
  | display => rfl
  | isDistinct => exact congrArg (fun a => Answer.flag a.distinct) h.arranged_eq

end Query.IsFaithful

/-! ## Nothing is seen of the arrangements -/

section

variable {α β : Type}

theorem forall_mem_modify {p : α → Prop} {f : α → α} (hf : ∀ a, p a → p (f a)) {as : List α}
    (h : ∀ a ∈ as, p a) (i : Nat) : ∀ a ∈ as.modify i f, p a := by
  induction as generalizing i with
  | nil => rwa [List.modify_nil]
  | cons a as ih =>
      obtain ⟨ha, has⟩ := List.forall_mem_cons.1 h
      cases i with
      | zero => exact List.forall_mem_cons.2 ⟨hf a ha, has⟩
      | succ i => exact List.forall_mem_cons.2 ⟨ha, ih has i⟩

theorem map_modify {f : α → α} {g : β → β} {view : α → β} (h : ∀ a, view (f a) = g (view a))
    (as : List α) (i : Nat) : (as.modify i f).map view = (as.map view).modify i g := by
  induction as generalizing i with
  | nil => rw [List.modify_nil, List.map_nil, List.modify_nil]
  | cons a as ih =>
      cases i with
      | zero => exact congrArg (· :: as.map view) (h a)
      | succ i => exact congrArg (view a :: ·) (ih i)

end

namespace Counted

/-- The query without its arrangement and without the count. -/
def bare (c : Counted) : Query := c.query.bare

variable {cs : List Counted}

theorem bare_arrange (c : Counted) : c.arrange.bare = c.bare := by
  rw [bare, query_arrange]
  rfl

theorem read_fst {c : Counted} (h : c.query.IsFaithful) (reading : Reading) :
    (holding.read reading c).1 = reading.view c.bare := by
  have hanswer : (holding.read reading c).1 = reading.view c.query.classified :=
    congrArg Prod.fst (c.read_eq reading)
  rw [hanswer]
  exact h.view_classified reading

theorem isFaithful_step (h : ∀ c ∈ cs, c.query.IsFaithful) (op : Operation) :
    ∀ c ∈ (holding.step op cs).2, c.query.IsFaithful := by
  cases op with
  | create origin =>
      apply List.forall_mem_append.2 ⟨h, List.forall_mem_singleton.2 _⟩
      exact .inl origin.arrangement_query
  | clone i =>
      -- a copy has the arrangement of what it is a copy of, and the same log
      apply List.forall_mem_append.2 ⟨h, _⟩
      intro c hc
      exact h c (List.mem_of_getElem? (Option.mem_toList.1 hc))
  | change i change =>
      apply forall_mem_modify _ h
      exact fun c hc => hc.apply change
  | read i reading =>
      apply forall_mem_modify _ h
      intro c hc
      have hquery : (holding.read reading c).2.query = c.query.classified :=
        congrArg Prod.snd (c.read_eq reading)
      exact hquery ▸ hc.classified

theorem isFaithful_run (h : ∀ c ∈ cs, c.query.IsFaithful) (ops : List Operation) :
    ∀ c ∈ (holding.run ops cs).2, c.query.IsFaithful := by
  induction ops generalizing cs with
  | nil => exact h
  | cons op ops ih => exact ih (isFaithful_step h op)

/-- One operation gives the same answer with and without arrangements. -/
theorem step_bare (h : ∀ c ∈ cs, c.query.IsFaithful) (op : Operation) :
    Query.bareHolding.step op (cs.map bare) =
      ((holding.step op cs).1, (holding.step op cs).2.map bare) := by
  cases op with
  | create origin =>
      apply congrArg (Prod.mk [])
      change cs.map bare ++ [origin.query] = (cs ++ [holding.hold origin.query]).map bare
      rw [List.map_append, ← origin.bare_query]
      rfl
  | clone i =>
      apply congrArg (Prod.mk [])
      rw [List.getElem?_map, Option.toList_map, ← List.map_append]
      rfl
  | change i change =>
      apply congrArg (Prod.mk [])
      exact (map_modify (fun c => change.bare_apply c.query) cs i).symm
  | read i reading =>
      apply Prod.ext _ (map_modify bare_arrange cs i).symm
      change (cs.map bare)[i]?.toList.map reading.view =
        cs[i]?.toList.map fun c => (holding.read reading c).1
      rw [List.getElem?_map, Option.toList_map, List.map_map]
      apply List.map_congr_left
      intro c hc
      have hmem : c ∈ cs := List.mem_of_getElem? (Option.mem_toList.1 hc)
      exact (read_fst (h c hmem) reading).symm

theorem run_bare (h : ∀ c ∈ cs, c.query.IsFaithful) (ops : List Operation) :
    Query.bareHolding.run ops (cs.map bare) =
      ((holding.run ops cs).1, (holding.run ops cs).2.map bare) := by
  induction ops generalizing cs with
  | nil => rfl
  | cons op ops ih => simp only [Holding.run, step_bare h op, ih (isFaithful_step h op)]

/-! ## How often a log is arranged -/

/-- The log and what is held of it are as they were. -/
structure Stays (c c' : Counted) : Prop where
  log : c'.query.directives = c.query.directives
  arrangement : c'.query.arrangement = c.query.arrangement
  count : c'.arrangings = c.arrangings

theorem Stays.refl (c : Counted) : Stays c c := ⟨rfl, rfl, rfl⟩

theorem Stays.trans {c c' c'' : Counted} (h : Stays c c') (h' : Stays c' c'') : Stays c c'' where
  log := h'.log.trans h.log
  arrangement := h'.arrangement.trans h.arrangement
  count := h'.count.trans h.count

/-- What can become of a query to which nothing is appended: it stays, or its
log is arranged where it was not. -/
inductive Rests (c c' : Counted) : Prop
  | stays (h : Stays c c')
  | arranged (log : c'.query.directives = c.query.directives)
      (before : c.query.arrangement = none) (after : c'.query.arrangement.isSome)
      (count : c'.arrangings = c.arrangings + 1)

namespace Rests

variable {c c' c'' : Counted}

theorem refl (c : Counted) : Rests c c := .stays (.refl c)

theorem trans (h : Rests c c') (h' : Rests c' c'') : Rests c c'' := by
  cases h with
  | stays h =>
      cases h' with
      | stays h' => exact .stays (h.trans h')
      | arranged log before after count =>
          exact .arranged (log.trans h.log) (h.arrangement.symm.trans before) after
            (count.trans (congrArg (· + 1) h.count))
  | arranged log before after count =>
      cases h' with
      | stays h' =>
          exact .arranged (h'.log.trans log) before (h'.arrangement ▸ after)
            (h'.count.trans count)
      | arranged _ before' _ _ =>
          -- an arrangement is never dropped, so there is no second time
          rw [before'] at after
          cases after

theorem directives_eq (h : Rests c c') : c'.query.directives = c.query.directives := by
  cases h with
  | stays h => exact h.log
  | arranged log _ _ _ => exact log

/-- A log is arranged at most once. -/
theorem arrangings_le (h : Rests c c') : c'.arrangings ≤ c.arrangings + 1 := by
  cases h with
  | stays h => exact Nat.le_add_right_of_le (Nat.le_of_eq h.count)
  | arranged _ _ _ count => exact Nat.le_of_eq count

/-- A log that is arranged is not arranged again. -/
theorem stays_of_isSome (h : Rests c c') (hc : c.query.arrangement.isSome) : Stays c c' := by
  cases h with
  | stays h => exact h
  | arranged _ before _ _ =>
      rw [before] at hc
      cases hc

end Rests

theorem rests_arrange (c : Counted) : Rests c c.arrange := by
  obtain ⟨⟨table, log, arrangement⟩, arrangings⟩ := c
  cases arrangement with
  | none => exact .arranged rfl rfl rfl rfl
  | some a => exact .refl _

variable {i : Nat} {op : Operation}

theorem stays_act (happends : op.appendsTo i = false) (hreads : op.readsFrom i = false)
    (c : Counted) : Stays c (holding.act i op c) := by
  cases op with
  | create origin => exact .refl c
  | clone j => exact .refl c
  | change j change =>
      rw [Holding.act]
      split
      case isTrue hj =>
        rw [Operation.appendsTo, hj, beq_self_eq_true, Bool.true_and] at happends
        refine ⟨Change.directives_apply happends, ?_, rfl⟩
        exact (change.arrangement_apply c.query).trans (if_neg (ne_true_of_eq_false happends))
      case isFalse => exact .refl c
  | read j reading =>
      rw [Holding.act, if_neg (ne_of_beq_false hreads)]
      exact .refl c

theorem rests_act (happends : op.appendsTo i = false) (c : Counted) :
    Rests c (holding.act i op c) := by
  cases hreads : op.readsFrom i with
  | false => exact .stays (stays_act happends hreads c)
  | true =>
      cases op with
      | read j reading =>
          rw [Holding.act, if_pos (eq_of_beq hreads)]
          exact c.rests_arrange
      | _ => cases hreads

/-- What each operation of a history does, the history does. -/
theorem foldl_act {r : Counted → Counted → Prop} (hrefl : ∀ c, r c c)
    (htrans : ∀ {c c' c''}, r c c' → r c' c'' → r c c'') {ops : List Operation}
    (h : ∀ op ∈ ops, ∀ c, r c (holding.act i op c)) (c : Counted) :
    r c (ops.foldl (fun c op => holding.act i op c) c) := by
  induction ops generalizing c with
  | nil => exact hrefl c
  | cons op ops ih =>
      obtain ⟨hop, hops⟩ := List.forall_mem_cons.1 h
      exact htrans (hop c) (ih hops _)

/-! ## Histories -/

/-- After every history a query keeps no arrangement or that of its whole log.
Whatever is read is what is read where no arrangement is kept. While nothing is
appended to a query, its log is arranged at most once; if it was arranged before
or is not read, then not at all, and its arrangement stays. To set a table and to
append no directives are among the operations that append nothing. -/
theorem arrangement_never_observed (ops : List Operation) :
    (∀ c ∈ holding.objects ops, c.query.IsFaithful) ∧
    (holding.answers ops = Query.bareHolding.answers ops ∧
      (holding.objects ops).map bare = Query.bareHolding.objects ops ∧
      ∀ c ∈ holding.objects ops, ∀ reading,
        (holding.read reading c).1 = (Query.bareHolding.read reading c.bare).1) ∧
    ∀ (more : List Operation) (i : Nat) (c : Counted), (holding.objects ops)[i]? = some c →
      (∀ op ∈ more, op.appendsTo i = false) →
      ∃ c', (holding.objects (ops ++ more))[i]? = some c' ∧
        c'.query.directives = c.query.directives ∧ c'.arrangings ≤ c.arrangings + 1 ∧
        (c.query.arrangement.isSome ∨ (∀ op ∈ more, op.readsFrom i = false) →
          c'.arrangings = c.arrangings ∧ c'.query.arrangement = c.query.arrangement) := by
  have hstart : ∀ c ∈ ([] : List Counted), c.query.IsFaithful := nofun
  have hfaithful := isFaithful_run hstart ops
  have hbare := run_bare hstart ops
  refine ⟨hfaithful, ⟨congrArg Prod.fst hbare.symm, congrArg Prod.snd hbare.symm, ?_⟩, ?_⟩
  · exact fun c hc reading => read_fst (hfaithful c hc) reading
  · intro more i c hc hmore
    have hrests : Rests c (more.foldl (fun c op => holding.act i op c) c) :=
      foldl_act Rests.refl Rests.trans (fun op hop => rests_act (hmore op hop)) c
    refine ⟨_, ?_, hrests.directives_eq, hrests.arrangings_le, ?_⟩
    · rw [Holding.objects, Holding.run_append]
      exact holding.getElem?_run more hc
    · intro hquiet
      have hstays : Stays c (more.foldl (fun c op => holding.act i op c) c) := by
        rcases hquiet with hsome | hreads
        · exact hrests.stays_of_isSome hsome
        · exact foldl_act Stays.refl Stays.trans
            (fun op hop => stays_act (hmore op hop) (hreads op hop)) c
      exact ⟨hstays.count, hstays.arrangement⟩

/-- A query is read, copied and read again; then both change. -/
def copiedHistory : List Operation :=
  [.create (.new "t"), .change 0 (.append (.column "a")), .read 0 (.text .relational), .clone 0,
    .change 1 (.append .distinct), .read 1 .isDistinct, .read 1 (.text .relational)]

/-- Nothing is appended to the first query here. -/
def quietHistory : List Operation :=
  [.change 0 (.appendAll []), .change 0 (.setTable "u"), .change 1 (.append (.column "b")),
    .read 0 .display, .create (.collect [.column "c"]), .read 0 (.text .relational)]

theorem quietHistory_keeps_arrangement :
    holding.answers (copiedHistory ++ quietHistory) =
        [.text "SELECT \"a\" FROM \"t\"", .flag true, .text "SELECT DISTINCT \"a\" FROM \"t\"",
          .text "u[a]", .text "SELECT \"a\" FROM \"u\""] ∧
      (holding.objects (copiedHistory ++ quietHistory)).map (·.arrangings) = [1, 2, 0] ∧
      ∃ c c', (holding.objects copiedHistory)[0]? = some c ∧
        (holding.objects (copiedHistory ++ quietHistory))[0]? = some c' ∧
        c'.arrangings = c.arrangings ∧ c'.query.arrangement = c.query.arrangement := by
  obtain ⟨-, -, hrests⟩ := arrangement_never_observed copiedHistory
  obtain ⟨c, hc, hsome⟩ : ∃ c, (holding.objects copiedHistory)[0]? = some c ∧
      c.query.arrangement.isSome := ⟨_, rfl, rfl⟩
  obtain ⟨c', hc', -, -, hkept⟩ := hrests quietHistory 0 c hc (by decide)
  exact ⟨by decide +kernel, by decide +kernel, c, c', hc, hc', hkept (.inl hsome)⟩

end Counted

end QueryNotation
