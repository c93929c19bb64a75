import QueryNotation.Proofs.ItemSpelling

/-!
# Counting the quotes of a statement

Relational text puts column names between double quotes and has no other
quotes, if there are no strings. Their number in a statement is the sum
over the directives that it shows. A number that is not finite is read
again as a column, and adds two.
-/

namespace QueryNotation

open Number

/-- How many double quotes a text has. -/
def quotes (text : List Char) : Nat := text.count '"'

theorem quotes_append (text rest : List Char) : quotes (text ++ rest) = quotes text + quotes rest :=
  List.count_append

theorem quotes_intercalate {separator : List Char} (h : quotes separator = 0)
    (parts : List (List Char)) : quotes (separator.intercalate parts) = quotes parts.flatten := by
  induction parts with
  | nil => rfl
  | cons part parts ih =>
      cases parts with
      | nil => simp
      | cons next parts =>
          rw [List.intercalate_cons_cons, quotes_append, quotes_append, ih, h, Nat.add_zero]
          exact (quotes_append part _).symm

/-! ## Statements -/

namespace Select

theorem quotes_led {keyword : String} (h : quotes keyword.toList = 0) (text : List Char) :
    quotes (led keyword text) = quotes text := by
  rw [led, quotes_append, h, Nat.zero_add]

theorem quotes_commaJoined (members : List (List Char)) :
    quotes (commaJoined members) = quotes members.flatten := quotes_intercalate rfl members

theorem quotes_conjunction (members : List (List Char)) :
    quotes (conjunction members) = quotes members.flatten := by
  have hseparator : quotes ") AND (".toList = 0 := rfl
  unfold conjunction
  split
  next member => simp
  next =>
    have hopen (text : List Char) : quotes ('(' :: text) = quotes text := by
      simp [quotes]
    rw [quotes_append, hopen, quotes_intercalate hseparator]
    exact Nat.add_zero _

theorem quotes_selection (members : List (List Char)) :
    quotes (selection members) = quotes members.flatten := by
  unfold selection
  split
  next h =>
    rw [List.isEmpty_iff.1 h]
    rfl
  next => exact quotes_commaJoined members

theorem quotes_part {keyword : String} {join : List (List Char) → List Char}
    (hkeyword : quotes keyword.toList = 0)
    (hjoin : ∀ members, quotes (join members) = quotes members.flatten)
    (members : List (List Char)) :
    quotes (part keyword join members) = quotes members.flatten := by
  unfold part
  split
  next h =>
    rw [List.isEmpty_iff.1 h]
    rfl
  next => rw [quotes_led hkeyword, hjoin]

theorem quotes_sortKey (d : Directive) : quotes (sortKey d) = quotes (d.render .relational) := by
  have hascending : quotes " ASC".toList = 0 := rfl
  have hdescending : quotes " DESC".toList = 0 := rfl
  unfold sortKey
  rw [quotes_append]
  cases d with
  | order key direction =>
      dsimp only
      split
      next => rw [hascending, Nat.add_zero]
      next =>
        split
        next => rw [hdescending, Nat.add_zero]
        next => rfl
  | _ => rfl

theorem quotes_flatten_congr {ds : List Directive} {f g : Directive → List Char}
    (h : ∀ d, quotes (f d) = quotes (g d)) :
    quotes (ds.map f).flatten = quotes (ds.map g).flatten := by
  induction ds with
  | nil => rfl
  | cons d ds ih => simp only [List.map_cons, List.flatten_cons, quotes_append, h, ih]

theorem quotes_rowBounds (log : Array Directive) (limit offset : Option Nat) :
    quotes (rowBounds log limit offset) = quotes (members log limit.toArray).flatten +
      quotes (members log offset.toArray).flatten := by
  have hmax : quotes (Nat.toDigits 10 maxRows) = 0 := by decide +kernel
  have hlimits : quotes (if limit.isNone && offset.isSome then [Nat.toDigits 10 maxRows]
      else members log limit.toArray).flatten = quotes (members log limit.toArray).flatten := by
    split
    next h =>
      rw [Bool.and_eq_true, Option.isNone_iff_eq_none] at h
      rw [h.1, List.flatten_singleton, hmax]
      rfl
    next => rfl
  rw [rowBounds_eq, quotes_append, quotes_part rfl quotes_commaJoined,
    quotes_part rfl quotes_commaJoined, hlimits]

/-- The quotes of a statement are those of its table and of what it shows. -/
theorem quotes_statement (table : String) (log : Array Directive) (a : Arrangement) :
    quotes (statement table log a) = quotes (Directive.columnText table .relational) +
      quotes ((shown log a).map (Directive.render .relational)).flatten := by
  have hselect : quotes (led (if a.distinct then "SELECT DISTINCT " else "SELECT ")
      (selection (members log a.values))) = quotes (members log a.values).flatten := by
    rw [quotes_led (by split <;> rfl), quotes_selection]
  have hsorted : quotes ((pick log a.orders).map sortKey).flatten =
      quotes (members log a.orders).flatten := quotes_flatten_congr quotes_sortKey
  have hshown : quotes ((shown log a).map (Directive.render .relational)).flatten =
      quotes (members log a.values).flatten + quotes (members log a.filters).flatten +
        quotes (members log a.groupings).flatten + quotes (members log a.groupFilters).flatten +
          quotes (members log a.orders).flatten + quotes (members log a.limit.toArray).flatten +
            quotes (members log a.offset.toArray).flatten := by
    simp only [shown, members, List.map_append, List.flatten_append, quotes_append]
  unfold statement
  rw [hshown]
  simp only [quotes_append]
  rw [hselect, quotes_led rfl, quotes_part rfl quotes_conjunction, quotes_part rfl quotes_commaJoined,
    quotes_part rfl quotes_conjunction, quotes_part rfl quotes_commaJoined, quotes_rowBounds, hsorted]
  omega

end Select

/-! ## Numbers that are not finite -/

instance : DecidablePred Value.IsFinite
  | .float (.infinity _) | .float .nan => isFalse id
  | .float (.finite _ _) | .integer _ | .decimal _ | .string _ | .boolean _ => isTrue trivial

namespace Directive

mutual

/-- How many constants of a tree are not finite. -/
def infinities : Directive → Nat
  | constant value => if value.IsFinite then 0 else 1
  | call _ arguments => infinitiesAll arguments
  | group inner | unary _ inner | clause _ inner | order inner _ => inner.infinities
  | binary _ left right => left.infinities + right.infinities
  | column _ | distinct | all => 0

def infinitiesAll : List Directive → Nat
  | [] => 0
  | d :: rest => d.infinities + infinitiesAll rest

end

theorem infinitiesAll_eq_zero_iff {ds : List Directive} :
    infinitiesAll ds = 0 ↔ ∀ d ∈ ds, d.infinities = 0 := by
  induction ds with
  | nil => simp [infinitiesAll]
  | cons d ds ih => rw [infinitiesAll, Nat.add_eq_zero_iff, ih, List.forall_mem_cons]

end Directive

theorem quotes_reread (v : Value) : quotes (v.reread.render .relational) =
    quotes v.text + 2 * (Directive.constant v).infinities := by
  rw [Directive.infinities]
  by_cases h : v.IsFinite
  · rw [render_reread .relational h, if_pos h, Nat.mul_zero, Nat.add_zero]
  · rw [if_neg h]
    cases v with
    | float x =>
        cases x with
        | finite negative rank => exact (h trivial).elim
        | infinity negative => cases negative <;> rfl
        | nan => rfl
    | _ => exact (h trivial).elim

theorem quotes_flatten_grow {ds : List Directive} {f g : Directive → List Char}
    (h : ∀ d ∈ ds, quotes (f d) = quotes (g d) + 2 * d.infinities) :
    quotes (ds.map f).flatten = quotes (ds.map g).flatten + 2 * Directive.infinitiesAll ds := by
  induction ds with
  | nil => rfl
  | cons d ds ih =>
      obtain ⟨hd, hds⟩ := List.forall_mem_cons.1 h
      simp only [List.map_cons, List.flatten_cons, quotes_append, Directive.infinitiesAll, hd, ih hds]
      omega

namespace Directive

variable {property : Value → Prop} {d : Directive}

/-- Every constant that is not finite is read again between quotes. -/
theorem Worded.quotes_reread (h : d.Worded property) : quotes (d.reread.render .relational) =
    quotes (d.render .relational) + 2 * d.infinities := by
  have hsingle {c : Char} (hc : c ≠ '"') (text : List Char) : quotes (c :: text) = quotes text :=
    List.count_cons_of_ne hc
  induction h with
  | column hword hname => rfl
  | @constant v h => exact QueryNotation.quotes_reread v
  | @call name arguments hword hname h ih =>
      have hseparator : quotes ", ".toList = 0 := rfl
      rw [Directive.reread, rereadAll_eq_map, render, render, renderAll_eq_map, renderAll_eq_map,
        infinities, List.map_map]
      simp only [quotes_append, hsingle (by decide : '(' ≠ '"'), quotes_intercalate hseparator]
      have harguments := quotes_flatten_grow ih
      simp only [Function.comp_def]
      omega
  | group h ih =>
      rw [Directive.reread, render, render, infinities]
      simp only [quotes_append, hsingle (by decide : '(' ≠ '"'), ih]
      omega
  | unary op h ih =>
      rw [Directive.reread, render, render, infinities, quotes_append, quotes_append, ih]
      omega
  | binary op ha hb iha ihb =>
      rw [Directive.reread, render, render, infinities]
      simp only [quotes_append, iha, ihb]
      omega

theorem Worded.quotes_normal (h : d.Worded Value.IsUnquoted) :
    quotes (d.reread.regroup.render .relational) =
      quotes (d.render .relational) + 2 * d.infinities := by
  have hexpression := (h.reread fun _ hv => hv).isExpression
  rw [(isSequential_render .relational).regroup hexpression]
  exact h.quotes_reread

theorem IsWritable.quotes_normal (h : d.IsWritable Value.IsUnquoted) :
    quotes (d.normal.render .relational) = quotes (d.render .relational) + 2 * d.infinities := by
  cases h with
  | expression h hleft hclause =>
      rw [h.normal_eq]
      exact h.quotes_normal
  | clause c h =>
      rw [normal, render, render, infinities]
      exact h.quotes_normal
  | order h hdirection =>
      rw [normal, render, render, infinities]
      exact h.quotes_normal

end Directive

end QueryNotation
