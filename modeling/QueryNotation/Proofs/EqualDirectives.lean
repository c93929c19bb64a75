import Mathlib.Algebra.Order.Ring.Int
import QueryNotation.Proofs.Numerals
import QueryNotation.Proofs.StatementParts

/-!
# Equal directives

Constants and directions are compared as their types define it, so that
equal directives may differ in the places of their decimals and in the
signs of their zeros. The places are seen in no text, and the signs in none
if no zero is negative. All that is seen of a constant is its text, so that
directives are compared here with these texts in place of their constants.
-/

namespace QueryNotation

open Number

/-! ## Constants -/

/-- Zeros at the end of the places are lost, however many there are. -/
theorem trimZeros_mul_pow (digits places k : Nat) :
    trimZeros (digits * 10 ^ k) (places + k) = trimZeros digits places := by
  induction k with
  | zero => simp
  | succ k ih =>
      have hten : digits * 10 ^ (k + 1) = digits * 10 ^ k * 10 := by
        rw [Nat.pow_succ, Nat.mul_assoc]
      rw [← Nat.add_assoc, trimZeros, hten, if_pos (Nat.mul_mod_left _ _),
        Nat.mul_div_cancel _ (by decide), ih]

/-- Equal decimals have one text when they lose the zeros at their end. -/
theorem text_normalize_of_equal {x y : Decimal} (h : x.equal y = true) :
    x.normalize.text = y.normalize.text := by
  rw [Decimal.equal_iff] at h
  have hneg (m : Int) (n : Nat) : m * 10 ^ n < 0 ↔ m < 0 := by
    have hpow : (0 : Int) < 10 ^ n := Int.pow_pos (by decide)
    rw [mul_neg_iff]
    omega
  have hsign : x.mantissa < 0 ↔ y.mantissa < 0 := by
    rw [← hneg _ y.scale, h, hneg]
  -- Both sides of this equation are the digits over the places of both.
  have hdigits : x.mantissa.natAbs * 10 ^ y.scale = y.mantissa.natAbs * 10 ^ x.scale := by
    have habs := congrArg Int.natAbs h
    simpa only [Int.natAbs_mul, Int.natAbs_pow, Int.reduceAbs] using habs
  have htrim : trimZeros x.mantissa.natAbs x.scale = trimZeros y.mantissa.natAbs y.scale := by
    rw [← trimZeros_mul_pow _ _ y.scale, hdigits, Nat.add_comm, trimZeros_mul_pow]
  simp only [text_normalize, hsign, htrim]

def Number.Binary64.isNegativeZero : Binary64 → Bool
  | .finite negative rank => negative && rank.val == 0
  | .infinity _ | .nan => false

theorem Number.Binary64.eq_of_equal {x y : Binary64} (h : x.equal y = true)
    (hx : x.isNegativeZero = false) (hy : y.isNegativeZero = false) : x = y := by
  cases x with
  | nan => cases h
  | infinity negative =>
      cases y with
      | infinity negative' => rw [eq_of_beq h]
      | nan | finite => cases h
  | finite negative rank =>
      cases y with
      | nan | infinity => cases h
      | finite negative' rank' =>
          simp only [equal, Bool.and_eq_true, Bool.or_eq_true, beq_iff_eq] at h
          obtain ⟨rfl, rfl | hzero⟩ := h
          · rfl
          · simp only [isNegativeZero, hzero, beq_self_eq_true, Bool.and_true] at hx hy
            rw [hx, hy]

/-- The floats among the parts of a value: the value, or none. -/
def Value.floats : Value → List Binary64
  | float x => [x]
  | integer _ | decimal _ | string _ | boolean _ => []

theorem Value.text_eq_of_equal {v w : Value} (h : v.equal w = true)
    (hv : ∀ x ∈ v.floats, x.isNegativeZero = false)
    (hw : ∀ x ∈ w.floats, x.isNegativeZero = false) : v.text = w.text := by
  cases v with
  | integer m =>
      cases w with
      | integer n => rw [eq_of_beq h]
      | _ => cases h
  | float x =>
      cases w with
      | float y =>
          rw [Binary64.eq_of_equal h (hv x (List.mem_singleton_self x))
            (hw y (List.mem_singleton_self y))]
      | _ => cases h
  | decimal d =>
      cases w with
      | decimal e => exact text_normalize_of_equal h
      | _ => cases h
  | string s =>
      cases w with
      | string t => rw [eq_of_beq h]
      | _ => cases h
  | boolean a =>
      cases w with
      | boolean b => rw [eq_of_beq h]
      | _ => cases h

/-! ## Trees -/

namespace Directive

/-- Induction over trees, with the arguments of a call as its parts. -/
theorem induction {motive : Directive → Prop} (column : ∀ name, motive (column name))
    (constant : ∀ v, motive (constant v))
    (call : ∀ name arguments, (∀ d ∈ arguments, motive d) → motive (call name arguments))
    (group : ∀ inner, motive inner → motive (group inner))
    (unary : ∀ op operand, motive operand → motive (unary op operand))
    (binary : ∀ op left right, motive left → motive right → motive (binary op left right))
    (distinct : motive distinct) (all : motive all)
    (clause : ∀ c inner, motive inner → motive (clause c inner))
    (order : ∀ key direction, motive key → motive (order key direction)) (d : Directive) :
    motive d :=
  @Directive.rec motive (fun ds => ∀ d ∈ ds, motive d) column constant call group unary binary
    distinct all clause order (List.forall_mem_nil motive)
    (fun _ _ hd hds => List.forall_mem_cons.2 ⟨hd, hds⟩) d

mutual

/-- The floats of a tree: those among its constants, and its directions. -/
def floats : Directive → List Binary64
  | constant value => value.floats
  | call _ arguments => floatsAll arguments
  | group inner | unary _ inner | clause _ inner => inner.floats
  | binary _ left right => left.floats ++ right.floats
  | order key direction => direction :: key.floats
  | column _ | distinct | all => []

def floatsAll : List Directive → List Binary64
  | [] => []
  | d :: rest => d.floats ++ floatsAll rest

end

mutual

/-- The tree with the text of every constant as a string in its place. -/
def verbatim : Directive → Directive
  | column name => column name
  | constant value => constant (.string (String.ofList value.text))
  | call name arguments => call name (verbatimAll arguments)
  | group inner => group inner.verbatim
  | unary op operand => unary op operand.verbatim
  | binary op left right => binary op left.verbatim right.verbatim
  | distinct => distinct
  | all => all
  | clause c inner => clause c inner.verbatim
  | order key direction => order key.verbatim direction

def verbatimAll : List Directive → List Directive
  | [] => []
  | d :: rest => d.verbatim :: verbatimAll rest

end

theorem verbatimAll_eq_map (ds : List Directive) : verbatimAll ds = ds.map verbatim := by
  induction ds with
  | nil => rw [verbatimAll, List.map_nil]
  | cons d ds ih => rw [verbatimAll, ih, List.map_cons]

@[simp] theorem kind_verbatim (d : Directive) : d.verbatim.kind = d.kind := by
  cases d <;> rfl

@[simp] theorem role_verbatim (d : Directive) : d.verbatim.role = d.role := by
  cases d <;> rfl

@[simp] theorem render_verbatim (d : Directive) (language : Language) :
    d.verbatim.render language = d.render language := by
  induction d using Directive.induction with
  | column | distinct | all => rfl
  | constant v => rw [verbatim, render, Value.text, String.toList_ofList, render]
  | call name arguments ih =>
      have harguments : (arguments.map verbatim).map (render language) =
          arguments.map (render language) := by
        rw [List.map_map]
        exact List.map_congr_left ih
      rw [verbatim, verbatimAll_eq_map, render, renderAll_eq_map, harguments, render,
        renderAll_eq_map]
  | group inner ih => rw [verbatim, render, ih, render]
  | unary op operand ih => rw [verbatim, render, ih, render]
  | binary op left right ihl ihr => rw [verbatim, render, ihl, ihr, render]
  | clause c inner ih => rw [verbatim, render, ih, render]
  | order key direction ih => rw [verbatim, render, ih, render]

theorem verbatimAll_eq_of_equal {ds es : List Directive} (h : equalLists ds es = true)
    (hds : ∀ x ∈ floatsAll ds, x.isNegativeZero = false)
    (hes : ∀ x ∈ floatsAll es, x.isNegativeZero = false)
    (ih : ∀ d ∈ ds, ∀ e, d.equal e = true → (∀ x ∈ d.floats, x.isNegativeZero = false) →
      (∀ x ∈ e.floats, x.isNegativeZero = false) → d.verbatim = e.verbatim) :
    verbatimAll ds = verbatimAll es := by
  induction ds generalizing es with
  | nil =>
      cases es with
      | nil => rfl
      | cons e es => cases h
  | cons d ds ihs =>
      cases es with
      | nil => cases h
      | cons e es =>
          rw [equalLists, Bool.and_eq_true] at h
          rw [floatsAll, List.forall_mem_append] at hds hes
          obtain ⟨ihd, ihds⟩ := List.forall_mem_cons.1 ih
          rw [verbatimAll, verbatimAll, ihd e h.1 hds.1 hes.1, ihs h.2 hds.2 hes.2 ihds]

/-- Equal trees without negative zeros are the same tree, if constants are
seen as their texts. -/
theorem verbatim_eq_of_equal {d e : Directive} (h : d.equal e = true)
    (hd : ∀ x ∈ d.floats, x.isNegativeZero = false)
    (he : ∀ x ∈ e.floats, x.isNegativeZero = false) : d.verbatim = e.verbatim := by
  induction d using Directive.induction generalizing e with
  | column name =>
      cases e with
      | column name' => rw [eq_of_beq h]
      | _ => cases h
  | constant v =>
      cases e with
      | constant w => rw [verbatim, verbatim, Value.text_eq_of_equal h hd he]
      | _ => cases h
  | call name arguments ih =>
      cases e with
      | call name' arguments' =>
          rw [equal, Bool.and_eq_true] at h
          rw [verbatim, verbatim, eq_of_beq h.1, verbatimAll_eq_of_equal h.2 hd he fun d hd e => ih d hd]
      | _ => cases h
  | group inner ih =>
      cases e with
      | group inner' => rw [verbatim, verbatim, ih h hd he]
      | _ => cases h
  | unary op operand ih =>
      cases e with
      | unary op' operand' =>
          rw [equal, Bool.and_eq_true] at h
          rw [verbatim, verbatim, eq_of_beq h.1, ih h.2 hd he]
      | _ => cases h
  | binary op left right ihl ihr =>
      cases e with
      | binary op' left' right' =>
          rw [equal, Bool.and_eq_true, Bool.and_eq_true] at h
          rw [floats, List.forall_mem_append] at hd he
          rw [verbatim, verbatim, eq_of_beq h.1.1, ihl h.1.2 hd.1 he.1, ihr h.2 hd.2 he.2]
      | _ => cases h
  | distinct =>
      cases e with
      | distinct => rfl
      | _ => cases h
  | all =>
      cases e with
      | all => rfl
      | _ => cases h
  | clause c inner ih =>
      cases e with
      | clause c' inner' =>
          rw [equal, Bool.and_eq_true] at h
          rw [verbatim, verbatim, eq_of_beq h.1, ih h.2 hd he]
      | _ => cases h
  | order key direction ih =>
      cases e with
      | order key' direction' =>
          rw [equal, Bool.and_eq_true] at h
          rw [floats, List.forall_mem_cons] at hd he
          rw [verbatim, verbatim, ih h.1 hd.2 he.2, Binary64.eq_of_equal h.2 hd.1 he.1]
      | _ => cases h

end Directive

/-! ## Queries -/

namespace Query

variable {q r : Query}

/-- The query with every constant replaced by its text. -/
def verbatim (q : Query) : Query := (Query.new q.table).appendAll (q.directives.map .verbatim)

theorem text_verbatim (h : q.Built) (language : Language) :
    q.verbatim.text language = q.text language := by
  have htable : q.verbatim.table = q.table := table_appendAll _ _
  have hdirectives : q.verbatim.directives = q.directives.map .verbatim := by
    rw [verbatim, directives_appendAll]
    rfl
  cases language with
  | compact =>
      exact text_compact_eq htable hdirectives fun d _ => d.render_verbatim _
  | relational =>
      exact text_relational_eq h ((Built.new q.table).appendAll _) htable hdirectives
        (fun d _ => d.role_verbatim) fun d _ => d.render_verbatim _

end Query

/-- Equal directives without negative zeros have one kind and one text in
each language, and a query with the one has the texts of the query with the
other. -/
theorem Directive.texts_eq_of_equal {d e : Directive} (h : d.equal e = true)
    (hd : ∀ x ∈ d.floats, x.isNegativeZero = false)
    (he : ∀ x ∈ e.floats, x.isNegativeZero = false) :
    d.kind = e.kind ∧ (∀ language, d.text language = e.text language) ∧
      ∀ (q r : Query) (before after : List Directive), q.Built → r.Built → r.table = q.table →
        q.directives = before ++ d :: after → r.directives = before ++ e :: after →
        ∀ language, r.text language = q.text language := by
  have hverbatim : d.verbatim = e.verbatim := verbatim_eq_of_equal h hd he
  refine ⟨?_, ?_, ?_⟩
  · rw [← kind_verbatim d, hverbatim, kind_verbatim]
  · intro language
    rw [text, ← render_verbatim d, hverbatim, render_verbatim, text]
  · intro q r before after hq hr htable hqd hrd language
    have hquery : r.verbatim = q.verbatim := by
      rw [Query.verbatim, Query.verbatim, htable, hqd, hrd, List.map_append, List.map_append,
        List.map_cons, List.map_cons, hverbatim]
    rw [← Query.text_verbatim hr, hquery, Query.text_verbatim hq]

/-- A sort key with a factor inside the call of a function. -/
def Directive.scaledKey (factor : Decimal) : Directive :=
  .order (.call "max" [.binary .multiply (.column "price") (.constant (.decimal factor))]) (-.one)

/-- Sorting by 1.5 times the price is written in the same way with 1.50. -/
theorem Directive.scaledKey_texts :
    let d := scaledKey ⟨15, 1, by decide, by decide⟩
    let e := scaledKey ⟨150, 2, by decide, by decide⟩
    d ≠ e ∧ d.equal e = true ∧ (∀ x ∈ d.floats, x.isNegativeZero = false) ∧
      (∀ x ∈ e.floats, x.isNegativeZero = false) ∧ d.kind = e.kind ∧
      (∀ language, d.text language = e.text language) ∧
      ∀ language, ((Query.new "sales").appendAll [.column "id", e, .distinct]).text language =
        ((Query.new "sales").appendAll [.column "id", d, .distinct]).text language := by
  intro d e
  have hne : d ≠ e := by simp [d, e, scaledKey]
  have hequal : d.equal e = true := by decide +kernel
  have hd : ∀ x ∈ d.floats, x.isNegativeZero = false := by decide +kernel
  have he : ∀ x ∈ e.floats, x.isNegativeZero = false := by decide +kernel
  obtain ⟨hkind, htext, hquery⟩ := texts_eq_of_equal hequal hd he
  exact ⟨hne, hequal, hd, he, hkind, htext, hquery _ _ [.column "id"] [.distinct]
    ((Query.Built.new "sales").appendAll _) ((Query.Built.new "sales").appendAll _) rfl rfl rfl⟩

end QueryNotation
