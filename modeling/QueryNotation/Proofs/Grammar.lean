import QueryNotation.Reader.Query

/-!
# The grammar of the notation

The grammar is stated over tokens and without a reader. A derivation
also fixes the tree, so a list of tokens and a tree are related at once.
The cost of a tree is the number of levels that a reader needs for it:
an operand of a chain lies one level deeper for every operator before it.
-/

namespace QueryNotation

open BinaryOperator Number

/-- Parts with a comma after each. The last comma may be left out. -/
inductive CommaJoined : List (List Token × Directive) → List Token → Prop where
  | nil : CommaJoined [] []
  | last (p : List Token × Directive) : CommaJoined [p] p.1
  | cons {ps : List (List Token × Directive)} {ts : List Token} (p : List Token × Directive)
      (h : CommaJoined ps ts) : CommaJoined (p :: ps) (p.1 ++ .symbol .comma :: ts)

/-- The expressions of each level. Level zero holds the operands of all
operators: primary expressions behind any number of prefix operators. -/
inductive Derives : Nat → List Token → Directive → Prop where
  | literal (value : Value) : Derives 0 [.literal value] (.constant value)
  | column (name : String) : Derives 0 [.word name] (.column name)
  | andColumn : Derives 0 [.symbol .and] (.column "and")
  | orColumn : Derives 0 [.symbol .or] (.column "or")
  | call {ts : List Token} (name : String) (parts : List (List Token × Directive))
      (hjoined : CommaJoined parts ts) (hparts : ∀ p ∈ parts, Derives loosest p.1 p.2) :
      Derives 0 (.word name :: .symbol .openParen :: (ts ++ [.symbol .closeParen]))
        (.call name (parts.map (·.2)))
  | group {ts : List Token} {d : Directive} (h : Derives loosest ts d) :
      Derives 0 (.symbol .openParen :: (ts ++ [.symbol .closeParen])) (.group d)
  | unary {t : Token} {op : UnaryOperator} {ts : List Token} {d : Directive}
      (hop : UnaryOperator.ofToken? t = some op) (h : Derives 0 ts d) :
      Derives 0 (t :: ts) (.unary op d)
  | lift {level : Nat} {ts : List Token} {d : Directive} (h : Derives level ts d) :
      Derives (level + 1) ts d
  | binary {level : Nat} {t : Token} {op : BinaryOperator} {ts us : List Token}
      {a b : Directive} (ha : Derives (level + 1) ts a)
      (hop : atLevel? (level + 1) t = some op) (hb : Derives level us b) :
      Derives (level + 1) (ts ++ t :: us) (.binary op a b)

/-- The number that a constant behind signs stands for. -/
inductive SignedNumber : Directive → Binary64 → Prop where
  | number {value : Value} {x : Binary64} (h : value.toBinary64? = some x) :
      SignedNumber (.constant value) x
  | plus {d : Directive} {x : Binary64} (h : SignedNumber d x) :
      SignedNumber (.unary .positive d) x
  | minus {d : Directive} {x : Binary64} (h : SignedNumber d x) :
      SignedNumber (.unary .negative d) (-x)

/-- The names that a call with arguments may not have as an item. -/
def clauseNames : List String := ["where", "by", "having", "limit", "offset", "order"]

/-- A call with arguments and the name of a clause. -/
def Directive.IsClauseCall : Directive → Prop
  | .call name arguments => name ∈ clauseNames ∧ arguments ≠ []
  | _ => False

/-- What an expression stands for as an item. -/
inductive ReadAs : Directive → Directive → Prop where
  | clause (c : Clause) (inner : Directive) : ReadAs (.call c.word [inner]) (.clause c inner)
  | order (key : Directive) : ReadAs (.call "order" [key]) (.order key .one)
  | directed {direction : Directive} {x : Binary64} (key : Directive)
      (h : SignedNumber direction x) : ReadAs (.call "order" [key, direction]) (.order key x)
  | other {d : Directive} (h : ¬ d.IsClauseCall) : ReadAs d d

namespace Directive

/-- How many operators of the level stand on the left spine of a tree. -/
def spine (level : Nat) : Directive → Nat
  | binary op left _ => if op.level = level then left.spine level + 1 else 0
  | _ => 0

mutual

/-- How many levels a tree takes to read. -/
def cost : Directive → Nat
  | call _ arguments => 1 + largestCost arguments
  | group inner | unary _ inner | clause _ inner | order inner _ => 1 + inner.cost
  | binary op left right => max left.cost (left.spine op.level + 1 + right.cost)
  | column _ | constant _ | distinct | all => 0

def largestCost : List Directive → Nat
  | [] => 0
  | d :: rest => max d.cost (largestCost rest)

end

end Directive

/-- Items, each with the cost of the expression that it is read as. -/
inductive DerivesItem : Nat → List Token → Directive → Prop where
  | distinct : DerivesItem 0 [.word "distinct"] .distinct
  | all : DerivesItem 0 [.word "all"] .all
  | expression {ts : List Token} {e d : Directive} (h : Derives loosest ts e)
      (hdistinct : ts.head? ≠ some (.word "distinct")) (hall : ts.head? ≠ some (.word "all"))
      (hread : ReadAs e d) : DerivesItem e.cost ts d

/-- A place for an item. It may be empty. -/
inductive DerivesSlot : Nat → List Token → List Directive → Prop where
  | empty : DerivesSlot 0 [] []
  | item {n : Nat} {ts : List Token} {d : Directive} (h : DerivesItem n ts d) :
      DerivesSlot n ts [d]

/-- Places for items with commas between them, and the cost of the most
costly item. -/
inductive DerivesItems : Nat → List Token → List Directive → Prop where
  | last {n : Nat} {ts : List Token} {ds : List Directive} (h : DerivesSlot n ts ds) :
      DerivesItems n ts ds
  | cons {m n : Nat} {ts us : List Token} {here ds : List Directive}
      (hhere : DerivesSlot m ts here) (h : DerivesItems n us ds) :
      DerivesItems (max m n) (ts ++ .symbol .comma :: us) (here ++ ds)

/-- Queries: a table and its items in brackets. -/
inductive DerivesQuery : Nat → List Token → Query → Prop where
  | mk {n : Nat} {ts : List Token} {ds : List Directive} (table : String)
      (h : DerivesItems n ts ds) :
      DerivesQuery n (.word table :: .symbol .openBracket :: (ts ++ [.symbol .closeBracket]))
        ((Query.new table).appendAll ds)

/-- Every level holds the expressions of the tighter levels. -/
theorem Derives.mono {m n : Nat} {ts : List Token} {d : Directive} (h : Derives m ts d)
    (hmn : m ≤ n) : Derives n ts d := by
  induction hmn with
  | refl => exact h
  | step hmn ih => exact ih.lift

/-! ## What an expression starts with -/

/-- The tokens that an expression may start with. -/
def Token.StartsOperand : Token → Prop
  | .literal _ | .word _ => True
  | .symbol s => s ∈ [.plus, .minus, .exclamation, .and, .or, .openParen]
  | .endOfText => False

theorem Token.StartsOperand.ne_symbol {t : Token} {s : Symbol} (h : t.StartsOperand)
    (hs : s ∉ [.plus, .minus, .exclamation, .and, .or, .openParen]) : t ≠ .symbol s := by
  rintro rfl
  exact hs h

theorem Derives.startsOperand {level : Nat} {ts : List Token} {d : Directive}
    (h : Derives level ts d) : ∃ t us, ts = t :: us ∧ t.StartsOperand := by
  induction h with
  | literal value => exact ⟨_, _, rfl, trivial⟩
  | column name => exact ⟨_, _, rfl, trivial⟩
  | andColumn => exact ⟨_, _, rfl, by simp [Token.StartsOperand]⟩
  | orColumn => exact ⟨_, _, rfl, by simp [Token.StartsOperand]⟩
  | call name parts hjoined hparts ih => exact ⟨_, _, rfl, trivial⟩
  | group h ih => exact ⟨_, _, rfl, by simp [Token.StartsOperand]⟩
  | @unary t op ts d hop h ih =>
      refine ⟨_, _, rfl, ?_⟩
      cases t with
      | symbol s => cases s <;> simp_all [UnaryOperator.ofToken?, Token.StartsOperand]
      | literal | word | endOfText => trivial
  | lift h ih => exact ih
  | binary ha hop hb iha ihb =>
      obtain ⟨t, us, rfl, ht⟩ := iha
      exact ⟨t, _, rfl, ht⟩

theorem Derives.ne_nil {level : Nat} {ts : List Token} {d : Directive}
    (h : Derives level ts d) : ts ≠ [] := by
  obtain ⟨t, us, rfl, -⟩ := h.startsOperand
  exact List.cons_ne_nil t us

theorem CommaJoined.notMem {parts : List (List Token × Directive)} {ts : List Token}
    {t : Token} (h : CommaJoined parts ts) (ht : t ≠ .symbol .comma)
    (hparts : ∀ p ∈ parts, t ∉ p.1) : t ∉ ts := by
  induction h with
  | nil => simp
  | last p => exact hparts p (by simp)
  | cons p h ih =>
      obtain ⟨hp, hrest⟩ := List.forall_mem_cons.1 hparts
      simp [hp, ht, ih hrest]

theorem Derives.endOfText_notMem {level : Nat} {ts : List Token} {d : Directive}
    (h : Derives level ts d) : .endOfText ∉ ts := by
  induction h with
  | call name parts hjoined hparts ih => simp [hjoined.notMem (by simp) ih]
  | unary hop h ih =>
      rw [List.mem_cons, not_or]
      refine ⟨?_, ih⟩
      rintro rfl
      cases hop
  | binary ha hop hb iha ihb =>
      rw [List.mem_append, List.mem_cons, not_or, not_or]
      refine ⟨iha, ?_, ihb⟩
      rintro rfl
      cases (atLevel?_eq_some_iff.1 hop).1
  | lift h ih => exact ih
  | group h ih => simp [ih]
  | _ => simp

theorem CommaJoined.length_le {parts : List (List Token × Directive)} {ts : List Token}
    (h : CommaJoined parts ts) (hparts : ∀ p ∈ parts, Derives loosest p.1 p.2) :
    parts.length ≤ ts.length := by
  induction h with
  | nil => exact Nat.le_refl 0
  | last p => exact List.length_pos_iff.2 (hparts p (by simp)).ne_nil
  | cons p h ih =>
      have := ih (List.forall_mem_cons.1 hparts).2
      simp only [List.length_append, List.length_cons]
      omega

/-- Only the tokens of a call are read as a call. -/
theorem Derives.call_inv {level : Nat} {ts : List Token} {name : String}
    {arguments : List Directive} (h : Derives level ts (.call name arguments)) :
    ∃ us parts, ts = .word name :: .symbol .openParen :: (us ++ [.symbol .closeParen]) ∧
      CommaJoined parts us ∧ (∀ p ∈ parts, Derives loosest p.1 p.2) ∧
        arguments = parts.map (·.2) := by
  generalize hd : Directive.call name arguments = d at h
  induction h with
  | call name' parts hjoined hparts ih =>
      cases hd
      exact ⟨_, parts, rfl, hjoined, hparts, rfl⟩
  | lift h ih => exact ih hd
  | _ => cases hd

/-- The operators of a level do not occur on the spine of a tighter expression. -/
theorem Derives.spine_eq_zero {level : Nat} {ts : List Token} {d : Directive}
    (h : Derives level ts d) {looser : Nat} (hlooser : level < looser) :
    d.spine looser = 0 := by
  induction h with
  | lift h ih => exact ih (by omega)
  | binary ha hop hb iha ihb =>
      have hlevel := (atLevel?_eq_some_iff.1 hop).2
      exact if_neg (by omega)
  | _ => rfl

theorem Directive.spine_le_cost (level : Nat) (d : Directive) : d.spine level ≤ d.cost := by
  cases d with
  | binary op left right =>
      rw [spine, cost]
      split
      next h => subst h; omega
      next => exact Nat.zero_le _
  | _ => exact Nat.zero_le _

/-! ## Costs of the items of a query -/

/-- The cost of a list of items is the largest cost of an item. -/
theorem DerivesItems.exists_parts {n : Nat} {ts : List Token} {ds : List Directive}
    (h : DerivesItems n ts ds) : ∃ items : List (Nat × List Token × Directive),
      items.map (·.2.2) = ds ∧ (∀ i ∈ items, DerivesItem i.1 i.2.1 i.2.2 ∧ i.2.1 <:+: ts) ∧
        ∀ room, n ≤ room ↔ ∀ i ∈ items, i.1 ≤ room := by
  have hslot {n : Nat} {ts : List Token} {ds : List Directive} (h : DerivesSlot n ts ds) :
      ∃ items : List (Nat × List Token × Directive),
        items.map (·.2.2) = ds ∧ (∀ i ∈ items, DerivesItem i.1 i.2.1 i.2.2 ∧ i.2.1 <:+: ts) ∧
          ∀ room, n ≤ room ↔ ∀ i ∈ items, i.1 ≤ room := by
    cases h with
    | empty => exact ⟨[], rfl, by simp, by simp⟩
    | @item n ts d h => exact ⟨[(n, ts, d)], rfl, by simpa using h, by simp⟩
  induction h with
  | last h => exact hslot h
  | @cons m n ts us here ds hhere h ih =>
      obtain ⟨items, rfl, hitems, hroom⟩ := hslot hhere
      obtain ⟨rest, rfl, hrest, hroom'⟩ := ih
      refine ⟨items ++ rest, List.map_append, ?_, ?_⟩
      · intro i hi
        rcases List.mem_append.1 hi with hi | hi
        · exact ⟨(hitems i hi).1, (hitems i hi).2.trans (List.prefix_append _ _).isInfix⟩
        · refine ⟨(hrest i hi).1, (hrest i hi).2.trans ?_⟩
          exact ((List.suffix_cons _ _).trans (List.suffix_append _ _)).isInfix
      · intro room
        rw [Nat.max_le, hroom, hroom', List.forall_mem_append]

end QueryNotation
