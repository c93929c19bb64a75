import QueryNotation.Proofs.AcceptedItems
import QueryNotation.Proofs.Acceptance

/-!
# How deep trees nest

The nesting limit bounds the cost of a tree, and its height may be larger.
A chain of operators nests to the left, while the reader goes deeper for
its right operands. So every level of operators can put as many nodes on
top of a first operand as there is room for it. The heights that this
leads to are exactly the numbers up to a bound.
-/

namespace QueryNotation

open BinaryOperator

/-! ## Heights -/

namespace Directive

mutual

/-- How many nodes there are on the longest path down to a leaf. -/
def height : Directive → Nat
  | call _ arguments => largestHeight arguments + 1
  | group inner | unary _ inner | clause _ inner | order inner _ => inner.height + 1
  | binary _ left right => max left.height right.height + 1
  | column _ | constant _ | distinct | all => 0

def largestHeight : List Directive → Nat
  | [] => 0
  | d :: rest => max d.height (largestHeight rest)

end

theorem largestHeight_le_iff {ds : List Directive} {n : Nat} :
    largestHeight ds ≤ n ↔ ∀ d ∈ ds, d.height ≤ n := by
  induction ds with
  | nil => simp [largestHeight]
  | cons d ds ih => rw [largestHeight, Nat.max_le, ih, List.forall_mem_cons]

theorem spine_zero (d : Directive) : d.spine 0 = 0 := by
  cases d with
  | binary op left right => exact if_neg (Nat.ne_of_gt op.level_pos)
  | _ => rfl

end Directive

/-- The largest height of an operand that costs no more than the room. -/
def tallest : Nat → Nat
  | 0 => 0
  | room + 1 => tallest room + loosest * room + 1

/-- The largest height of an expression that costs no more than the room. -/
def heightBound (room : Nat) : Nat := tallest room + loosest * room

theorem tallest_mono {m n : Nat} (h : m ≤ n) : tallest m ≤ tallest n := by
  induction h with
  | refl => exact Nat.le_refl _
  | step h ih =>
      rw [tallest]
      omega

theorem tallest_pos {room : Nat} (h : 0 < room) : 0 < tallest room := by
  cases room with
  | zero => cases h
  | succ room => exact Nat.succ_pos _

theorem heightBound_mono {m n : Nat} (h : m ≤ n) : heightBound m ≤ heightBound n :=
  Nat.add_le_add (tallest_mono h) (Nat.mul_le_mul_left _ h)

/-! ## The bound -/

section

variable {d : Directive} {level room : Nat}

/-- The operators of one level more take one more operator for each level of
the room. -/
theorem spine_add_le (hcost : d.cost ≤ room) (level : Nat) :
    (level - 1) * room + d.spine level ≤ level * room := by
  cases level with
  | zero =>
      have hzero : (0 - 1) * room + d.spine 0 = 0 * room := by
        rw [d.spine_zero, Nat.zero_sub, Nat.add_zero]
      exact Nat.le_of_eq hzero
  | succ level =>
      have hspine := d.spine_le_cost (level + 1)
      rw [Nat.add_sub_cancel, Nat.succ_mul]
      omega

theorem height_lt_tallest (hlevel : level ≤ loosest) (hcost : 1 + d.cost ≤ room)
    (h : ∀ {room : Nat}, d.cost ≤ room →
      d.height ≤ tallest room + (level - 1) * room + d.spine level) :
    d.height + 1 ≤ tallest room := by
  obtain ⟨below, rfl⟩ := Nat.exists_eq_succ_of_ne_zero (Nat.ne_of_gt (by omega : 0 < room))
  have hbelow : d.cost ≤ below := by omega
  have hheight := h hbelow
  have hspine := spine_add_le hbelow level
  have hlevels : level * below ≤ loosest * below := Nat.mul_le_mul_right below hlevel
  rw [tallest]
  omega

/-- A tree is at most as tall as its first operand could be, with the
operators of its own level on top of those of the tighter levels. -/
theorem height_le_of_fits (h : Fits level d) (hcost : d.cost ≤ room) :
    d.height ≤ tallest room + (level - 1) * room + d.spine level := by
  have hbelow {level room n rest : Nat} (hn : n + 1 ≤ tallest room) :
      n + 1 ≤ tallest room + (level - 1) * room + rest := by omega
  induction h generalizing room with
  | column name => exact Nat.zero_le _
  | constant value => exact Nat.zero_le _
  | @call level name arguments h ih =>
      rw [Directive.cost] at hcost
      have hcosts := Directive.largestCost_le_iff.1 (Nat.le_refl (Directive.largestCost arguments))
      have harguments : Directive.largestHeight arguments ≤ tallest room - 1 := by
        rw [Directive.largestHeight_le_iff]
        intro d hd
        have hd' := hcosts d hd
        exact Nat.le_sub_one_of_lt (height_lt_tallest (Nat.le_refl _) (by omega) (ih d hd))
      have hpos := tallest_pos (by omega : 0 < room)
      rw [Directive.height]
      apply hbelow
      omega
  | group h ih =>
      rw [Directive.cost] at hcost
      rw [Directive.height]
      exact hbelow (height_lt_tallest (Nat.le_refl _) hcost ih)
  | unary op h ih =>
      rw [Directive.cost] at hcost
      rw [Directive.height]
      exact hbelow (height_lt_tallest (Nat.zero_le _) hcost ih)
  | @binary level op a b hlevel ha hb iha ihb =>
      rw [Directive.cost, Nat.max_le] at hcost
      have hleft := iha hcost.1
      have hright := ihb (by omega : b.cost ≤ room)
      have hspine := spine_add_le (by omega : b.cost ≤ room) (op.level - 1)
      have hheight : (Directive.binary op a b).height ≤
          tallest room + (op.level - 1) * room + (a.spine op.level + 1) := by
        rw [Directive.height]
        omega
      by_cases heq : op.level = level
      · rwa [Directive.spine, if_pos heq, ← heq]
      · have hpos := op.level_pos
        have hstep : (op.level - 1 + 1) * room ≤ (level - 1) * room :=
          Nat.mul_le_mul_right room (by omega)
        rw [Nat.succ_mul] at hstep
        omega

theorem height_le_heightBound (h : Fits loosest d) (hcost : d.cost ≤ room) :
    d.height ≤ heightBound room := by
  have hheight := height_le_of_fits h hcost
  have hspine := spine_add_le hcost loosest
  rw [heightBound]
  omega

theorem height_add_one_le (h : Fits loosest d) (hcost : 1 + d.cost ≤ room) :
    d.height + 1 ≤ heightBound room := by
  have hheight := height_lt_tallest (Nat.le_refl _) hcost (height_le_of_fits h)
  exact Nat.le_trans hheight (Nat.le_add_right _ _)

end

/-! ## Trees that are returned -/

/-- The ways to read a text: as an item, as a query, and for an expression
at its start. -/
inductive Entry where
  | item
  | query
  | expression

/-- The trees that reading a text returns. -/
def Entry.Returns : Entry → String → Directive → Prop
  | item, text, d => Directive.parse text = .ok d
  | query, text, d => ∃ q, Query.parse text = .ok q ∧ d ∈ q.directives
  | expression, text, d =>
    ∃ s s', Reader.start text.toList = .ok s ∧ Reader.expression s = .ok d s'

section

variable {d e : Directive} {room n : Nat} {ts : List Token}

theorem ReadAs.cost_le (h : ReadAs e d) : d.cost ≤ e.cost := by
  cases h with
  | clause c inner =>
      rw [Directive.cost, Directive.cost, Directive.largestCost]
      omega
  | order key =>
      rw [Directive.cost, Directive.cost, Directive.largestCost]
      omega
  | directed key h =>
      rw [Directive.cost, Directive.cost, Directive.largestCost]
      omega
  | other h => exact Nat.le_refl _

theorem ReadAs.height_le (h : ReadAs e d) (hfits : Fits loosest e) (hcost : d.cost ≤ room) :
    d.height ≤ heightBound room := by
  have hargument {name : String} {arguments : List Directive}
      (h : Fits loosest (.call name arguments)) : ∀ d ∈ arguments, Fits loosest d := by
    cases h with
    | call _ h => exact h
  cases h with
  | clause c inner =>
      rw [Directive.cost] at hcost
      rw [Directive.height]
      exact height_add_one_le (hargument hfits inner (by simp)) hcost
  | order key =>
      rw [Directive.cost] at hcost
      rw [Directive.height]
      exact height_add_one_le (hargument hfits key (by simp)) hcost
  | directed key h =>
      rw [Directive.cost] at hcost
      rw [Directive.height]
      exact height_add_one_le (hargument hfits key (by simp)) hcost
  | other h => exact height_le_heightBound hfits hcost

theorem DerivesItem.cost_le (h : DerivesItem n ts d) : d.cost ≤ n := by
  cases h with
  | distinct => exact Nat.zero_le _
  | all => exact Nat.zero_le _
  | expression h _ _ hread => exact hread.cost_le

theorem DerivesItem.height_le (h : DerivesItem n ts d) (hcost : d.cost ≤ room) :
    d.height ≤ heightBound room := by
  cases h with
  | distinct => exact Nat.zero_le _
  | all => exact Nat.zero_le _
  | expression h _ _ hread => exact hread.height_le h.fits hcost

theorem Entry.Returns.bounded {entry : Entry} {text : String} (h : entry.Returns text d) :
    d.cost ≤ maxDepth ∧ ∀ room, d.cost ≤ room → d.height ≤ heightBound room := by
  cases entry with
  | item =>
      obtain ⟨ts, n, -, hderives, hn⟩ := Directive.parse_eq_ok h
      exact ⟨Nat.le_trans hderives.cost_le hn, fun room => hderives.height_le⟩
  | query =>
      obtain ⟨q, hq, hd⟩ := h
      obtain ⟨ts, n, -, hderives, hn⟩ := Query.parse_eq_ok hq
      cases hderives with
      | mk table hitems =>
          rw [Query.directives_appendAll] at hd
          obtain ⟨m, us, hitem, hm, -⟩ := hitems.exists_item d hd
          exact ⟨Nat.le_trans hitem.cost_le (Nat.le_trans hm hn), fun room => hitem.height_le⟩
  | expression =>
      obtain ⟨s, s', -, hexpression⟩ := h
      obtain ⟨ts, -, hderives, hcost⟩ := Reader.expression_sound hexpression
      exact ⟨Nat.le_trans hcost (Nat.sub_le _ _), fun room => height_le_heightBound hderives.fits⟩

end

/-! ## Trees of every height -/

/-- Trees that grow to the left only, and have no other leaves than a
column. -/
inductive Directive.LeansLeft : Directive → Prop where
  | column : LeansLeft (.column "a")
  | group {d : Directive} (h : LeansLeft d) : LeansLeft (.group d)
  | binary (op : BinaryOperator) {d : Directive} (h : LeansLeft d) :
      LeansLeft (.binary op d (.column "a"))

namespace Directive

/-- A tree with some more operators of one kind after it. -/
def lengthen (op : BinaryOperator) : Nat → Directive → Directive
  | 0, d => d
  | n + 1, d => binary op (lengthen op n d) (column "a")

/-- As many operators of each level as there is room for. -/
def crown (room : Nat) (d : Directive) : Directive :=
  lengthen .or room (lengthen .and room (lengthen .less room
    (lengthen .plus room (lengthen .multiply room d))))

def tower : Nat → Directive
  | 0 => column "a"
  | room + 1 => group (crown room (tower room))

end Directive

/-- A tree that leans to the left, at a level, within a room and of a height. -/
structure Stands (level room height : Nat) (d : Directive) : Prop where
  leans : d.LeansLeft
  fits : Fits level d
  cost_le : d.cost ≤ room
  height_eq : d.height = height

theorem Fits.spine_eq_zero {level looser : Nat} {d : Directive} (h : Fits level d)
    (hlooser : level < looser) : d.spine looser = 0 := by
  cases h with
  | binary hlevel ha hb => exact if_neg (by omega)
  | _ => rfl

theorem Stands.lengthen {level room height n : Nat} {d : Directive}
    (h : Stands level room height d) (op : BinaryOperator) (hlevel : op.level = level + 1) (hn : n ≤ room) :
    Stands (level + 1) room (height + n) (d.lengthen op n) ∧
      (d.lengthen op n).spine op.level = n := by
  induction n with
  | zero =>
      exact ⟨⟨h.leans, h.fits.mono (Nat.le_succ _), h.cost_le, h.height_eq⟩,
        h.fits.spine_eq_zero (by omega)⟩
  | succ n ih =>
      obtain ⟨hstands, hspine⟩ := ih (by omega)
      refine ⟨⟨.binary op hstands.leans, ?_, ?_, ?_⟩, ?_⟩
      · exact .binary (Nat.le_of_eq hlevel) (hlevel ▸ hstands.fits) (.column "a")
      · rw [Directive.lengthen, Directive.cost, hspine, Nat.max_le]
        exact ⟨hstands.cost_le, hn⟩
      · rw [Directive.lengthen, Directive.height, hstands.height_eq, Directive.height,
          Nat.max_eq_left (Nat.zero_le _), Nat.add_assoc]
      · rw [Directive.lengthen, Directive.spine, if_pos rfl, hspine]

theorem Stands.crown {room height : Nat} {d : Directive} (h : Stands 0 room height d) :
    Stands loosest room (height + loosest * room) (d.crown room) := by
  have hmultiply := (h.lengthen .multiply rfl (Nat.le_refl room)).1
  have hplus := (hmultiply.lengthen .plus rfl (Nat.le_refl room)).1
  have hless := (hplus.lengthen .less rfl (Nat.le_refl room)).1
  have hand := (hless.lengthen .and rfl (Nat.le_refl room)).1
  have hor := (hand.lengthen .or rfl (Nat.le_refl room)).1
  have hheight : height + room + room + room + room + room = height + loosest * room := by
    rw [loosest]
    omega
  exact hheight ▸ hor

theorem stands_tower (room : Nat) : Stands 0 room (tallest room) (.tower room) := by
  induction room with
  | zero => exact ⟨.column, .column "a", Nat.le_refl 0, rfl⟩
  | succ room ih =>
      have hcrown := ih.crown
      refine ⟨.group hcrown.leans, .group hcrown.fits, ?_, ?_⟩
      · rw [Directive.tower, Directive.cost, Nat.add_comm]
        exact Nat.succ_le_succ hcrown.cost_le
      · rw [Directive.tower, Directive.height, hcrown.height_eq, tallest]

/-- On the way down its left side a tree has subtrees of all lower heights. -/
theorem Stands.lower {room height n : Nat} {d : Directive} (h : Stands loosest room height d)
    (hn : n ≤ height) : ∃ e, Stands loosest room n e := by
  obtain ⟨hleans, hfits, hcost, hheight⟩ := h
  induction hleans generalizing height with
  | column =>
      rw [Directive.height] at hheight
      have hzero : n = 0 := by omega
      subst hzero
      exact ⟨_, .column, hfits, hcost, rfl⟩
  | @group d h ih =>
      by_cases heq : n = height
      · exact ⟨_, .group h, hfits, hcost, heq ▸ hheight⟩
      · rw [Directive.cost] at hcost
        rw [Directive.height] at hheight
        cases hfits with
        | group hfits => exact ih (by omega) hfits (by omega) rfl
  | @binary op d h ih =>
      by_cases heq : n = height
      · exact ⟨_, .binary op h, hfits, hcost, heq ▸ hheight⟩
      · rw [Directive.cost] at hcost
        rw [Directive.height, Directive.height] at hheight
        cases hfits with
        | binary hlevel ha hb =>
            exact ih (by omega) (ha.mono hlevel) (by omega) rfl

theorem exists_stands {room n : Nat} (h : n ≤ heightBound room) :
    ∃ d, Stands loosest room n d := (stands_tower room).crown.lower h

/-! ## Reading such trees -/

namespace Directive.LeansLeft

variable {d : Directive}

theorem worded (h : d.LeansLeft) {property : Value → Prop} : d.Worded property := by
  have ha : (Directive.column "a").Worded property :=
    .column (isWord_of_all "a" (by decide)) (by decide)
  induction h with
  | column => exact ha
  | group h ih => exact .group ih
  | binary op h ih => exact .binary op ih ha

theorem leftmostName? (h : d.LeansLeft) {name : String} (hname : d.leftmostName? = some name) :
    name = "a" := by
  induction h with
  | column =>
      cases hname
      rfl
  | group h ih => cases hname
  | binary op h ih => exact ih hname

theorem isWrittenAs (h : d.LeansLeft) (hfits : Fits loosest d) : IsWrittenAs d d where
  spells := spells_render h.worded
  legible := h.worded
  fits := hfits
  head := by
    intro name hname hhead
    have hlegible : d.IsLegible := h.worded
    have ha := h.leftmostName? (hlegible.leftmostName?_of_head? hhead)
    subst ha
    exact absurd hname (by decide)

theorem readAs (h : d.LeansLeft) : ReadAs d d := by
  apply ReadAs.other
  intro hcall
  cases h <;> exact hcall

end Directive.LeansLeft

/-- Every entry returns such a tree for its notation, or for a query with
nothing else in it. -/
theorem Stands.returned {height : Nat} {d : Directive} (h : Stands loosest maxDepth height d)
    (entry : Entry) : ∃ text, entry.Returns text d := by
  have hwritten := h.leans.isWrittenAs h.fits
  have htext : HasTokens (d.text .compact) d.tokens := by
    have hspells := hwritten.spells
    rw [← String.toList_ofList (l := d.render .compact)] at hspells
    exact hspells.hasTokens delimits_nil
  cases entry with
  | item =>
      have hitem := hwritten.derivesItem h.leans.readAs
      exact ⟨_, (Directive.parse_of_derives htext hitem).1 h.cost_le⟩
  | query =>
      have hdirectives : ((Query.new "t").appendAll [d]).directives = [d] :=
        Query.directives_appendAll _ _
      have htable : HasTokens "t" [.word "t"] :=
        hasTokens_word_iff.2 ⟨isWord_of_all "t" (by decide +kernel), by decide⟩
      have hitems : ∀ e ∈ ((Query.new "t").appendAll [d]).directives, IsWrittenAs e (id e) := by
        rw [hdirectives]
        simpa using hwritten
      have hread : ∀ e ∈ ((Query.new "t").appendAll [d]).directives, ReadAs (id e) (id e) := by
        rw [hdirectives]
        simpa using h.leans.readAs
      have hderives := derivesQuery_directives hitems hread
      have hquery := hasTokens_query (q := (Query.new "t").appendAll [d]) htable
        fun e he => (hitems e he).spells
      refine ⟨_, _, (Query.parse_of_derives hquery hderives).1 ?_, ?_⟩
      · rw [hdirectives, List.map_id, Directive.largestCost_le_iff]
        simpa using h.cost_le
      · rw [Query.directives_appendAll, hdirectives, List.map_id]
        simp
  | expression =>
      obtain ⟨s, s', hstart, hpass, hend, -⟩ := Reader.hasTokens_iff_passes.1 htext
      have hfollow : s'.token.Follows loosest := hend.1 ▸ Reader.follows_endOfText
      have hfinds := Reader.expression_finds hwritten.derives hpass hfollow
      rw [(Reader.start_eq_ok hstart).2, Nat.sub_zero] at hfinds
      exact ⟨_, s, s', hstart, hfinds.1 h.cost_le⟩

theorem exists_returned_iff (entry : Entry) (room n : Nat) :
    (∃ text d, entry.Returns text d ∧ d.cost ≤ room ∧ d.height = n) ↔
      n ≤ heightBound (min room maxDepth) := by
  constructor
  · rintro ⟨text, d, hreturns, hcost, rfl⟩
    obtain ⟨hlimit, hheight⟩ := hreturns.bounded
    exact hheight _ (Nat.le_min.2 ⟨hcost, hlimit⟩)
  · intro hn
    obtain ⟨d, hstands⟩ := exists_stands hn
    have hcost := Nat.le_min.1 hstands.cost_le
    have hlimit : Stands loosest maxDepth n d := { hstands with cost_le := hcost.2 }
    obtain ⟨text, hreturns⟩ := hlimit.returned entry
    exact ⟨text, d, hreturns, hcost.1, hstands.height_eq⟩

/-- Every entry returns trees of exactly the heights up to 41408. That no
tree is higher than the nesting limit is true of the trees that cost no
more than six levels, and not of those that cost seven. -/
theorem returned_heights (entry : Entry) :
    (∀ n, (∃ text d, entry.Returns text d ∧ d.height = n) ↔ n ≤ 41408) ∧
      ∀ room, (∀ text d, entry.Returns text d → d.cost ≤ room → d.height ≤ maxDepth) ↔
        room ≤ 6 := by
  have hbound : heightBound maxDepth = 41408 := by decide +kernel
  have hsix : heightBound 6 ≤ maxDepth := by decide +kernel
  have hseven : maxDepth < heightBound 7 := by decide +kernel
  refine ⟨fun n => ?_, fun room => ⟨?_, ?_⟩⟩
  · have hreturned := exists_returned_iff entry maxDepth n
    rw [Nat.min_self, hbound] at hreturned
    rw [← hreturned]
    constructor
    · rintro ⟨text, d, hreturns, hheight⟩
      exact ⟨text, d, hreturns, hreturns.bounded.1, hheight⟩
    · rintro ⟨text, d, hreturns, -, hheight⟩
      exact ⟨text, d, hreturns, hheight⟩
  · intro h
    apply Decidable.byContradiction
    intro hroom
    have hmin : 7 ≤ min room maxDepth := Nat.le_min.2 ⟨by omega, by decide⟩
    obtain ⟨text, d, hreturns, hcost, hheight⟩ :=
      (exists_returned_iff entry room (heightBound 7)).2 (heightBound_mono hmin)
    have hle := h text d hreturns hcost
    omega
  · intro hroom text d hreturns hcost
    have hheight := hreturns.bounded.2 room hcost
    exact Nat.le_trans hheight (Nat.le_trans (heightBound_mono hroom) hsix)

theorem height_grouped (n : Nat) : (Directive.grouped n).height = n := by
  induction n with
  | zero => rfl
  | succ n ih => rw [Directive.grouped, Directive.height, ih]

/-- A sum whose first operand takes up the limit is one level higher. -/
theorem groupedSum_higher_than_limit :
    ∃ d, Directive.parse (String.ofList
        (List.replicate 128 '(' ++ 'a' :: List.replicate 128 ')' ++ ['+', '1'])) = .ok d ∧
      maxDepth < d.height := by
  have htext : HasTokens (String.ofList
      (List.replicate 128 '(' ++ 'a' :: List.replicate 128 ')' ++ ['+', '1']))
        (groupedTokens 128 ++ [.symbol .plus, .literal (.integer 1)]) := by
    rw [hasTokens_iff_lexes, String.toList_ofList]
    exact lexes_of_atMost (n := 260) (by decide +kernel) (by decide +kernel)
  have hleft : Derives 2 (groupedTokens 128) (.grouped 128) :=
    (derives_grouped 128).mono (Nat.zero_le _)
  have hplus : atLevel? 2 (.symbol .plus) = some .plus := rfl
  have hsum := Derives.binary hleft hplus ((Derives.literal (.integer 1)).mono (Nat.zero_le _))
  have hhead {n : Nat} {rest : List Token} {name : String} (hname : name ≠ "a") :
      (groupedTokens n ++ rest).head? ≠ some (.word name) := by
    cases n <;> simp [groupedTokens, hname.symm]
  have hitem := DerivesItem.expression (hsum.mono (by decide)) (hhead (by decide))
    (hhead (by decide)) (.other id)
  have hcost : (Directive.binary .plus (.grouped 128) (.constant (.integer 1))).cost = 128 := by
    rw [Directive.cost, cost_grouped]
    rfl
  refine ⟨_, (Directive.parse_of_derives htext hitem).1 (Nat.le_of_eq hcost), ?_⟩
  rw [Directive.height, height_grouped]
  decide

end QueryNotation
