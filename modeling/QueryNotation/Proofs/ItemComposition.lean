import QueryNotation.Proofs.LexedTokens
import QueryNotation.Proofs.QueryAcceptance
import QueryNotation.Proofs.StatementParts

/-!
# Queries put together from items

What an item is read as depends neither on the items before it nor on
what follows it, since no token goes on into a comma or a bracket. So a
query may be put together from texts of items that are read separately.
-/

namespace QueryNotation

open Text

theorem spells_blanks {text : List Char} (h : ∀ c ∈ text, isBlank c = true) :
    Spells Stops text [] :=
  fun _ _ _ _ hrest => Lexes.blanks h hrest

theorem stops_symbol {s : Symbol} (h : s = .comma ∨ s = .openBracket ∨ s = .closeBracket)
    (rest : List Char) : Stops (s.text.toList ++ rest) := by
  rcases h with rfl | rfl | rfl <;>
    exact stops_cons (by decide) (by decide) (by decide)

/-- The text of an item together with what it is read as on its own. A text
of blanks holds no item. -/
def IsItemText (text : String) : Option Directive → Prop
  | some d => Directive.parse text = .ok d
  | none => ∀ c ∈ text.toList, isBlank c = true

theorem IsItemText.exists_slot {text : String} {item : Option Directive}
    (h : IsItemText text item) :
    ∃ n ts, Spells Stops text.toList ts ∧ DerivesSlot n ts item.toList ∧ n ≤ maxDepth := by
  cases item with
  | none => exact ⟨0, [], spells_blanks h, .empty, Nat.zero_le _⟩
  | some d =>
      obtain ⟨ts, n, htext, hderives, hn⟩ := Directive.parse_eq_ok h
      exact ⟨n, ts, htext.spells, .item hderives, hn⟩

theorem exists_items {parts : List (String × Option Directive)}
    (hparts : ∀ p ∈ parts, IsItemText p.1 p.2) :
    ∃ n ts, Spells Stops ([','].intercalate (parts.map (·.1.toList))) ts ∧
      DerivesItems n ts (parts.filterMap (·.2)) ∧ n ≤ maxDepth := by
  induction parts with
  | nil => exact ⟨0, [], .nil Stops, .last .empty, Nat.zero_le _⟩
  | cons p parts ih =>
      obtain ⟨hp, hrest⟩ := List.forall_mem_cons.1 hparts
      obtain ⟨m, ts, hspells, hslot, hm⟩ := hp.exists_slot
      have hfilter : (p :: parts).filterMap (·.2) = p.2.toList ++ parts.filterMap (·.2) := by
        cases hitem : p.2 <;> simp [hitem]
      rw [hfilter]
      cases parts with
      | nil => exact ⟨m, ts, by simpa using hspells, .last (by simpa using hslot), hm⟩
      | cons q parts =>
          obtain ⟨n, us, htext, hderives, hn⟩ := ih hrest
          refine ⟨max m n, ts ++ .symbol .comma :: us, ?_, .cons hslot hderives,
            Nat.max_le.2 ⟨hm, hn⟩⟩
          have hcomma := (spells_comma fun _ => True).append htext fun _ _ => trivial
          have hall := hspells.append hcomma fun rest _ => stops_symbol (.inl rfl) _
          simpa [List.intercalate_cons_cons] using hall

/-- A query whose items are read separately. -/
theorem Query.parse_joined {text table : String} (htable : HasTokens text [.word table])
    {parts : List (String × Option Directive)} (hparts : ∀ p ∈ parts, IsItemText p.1 p.2) :
    ∃ q, parse (text ++ "[" ++ ",".intercalate (parts.map (·.1)) ++ "]") = .ok q ∧
      q = (Query.new table).appendAll (parts.filterMap (·.2)) ∧ q.table = table ∧
        q.directives = parts.filterMap (·.2) := by
  obtain ⟨n, ts, hitems, hderives, hn⟩ := exists_items hparts
  have hbracket {s : Symbol} (hs : s = .openBracket ∨ s = .closeBracket) :
      Spells (fun _ => True) s.text.toList [.symbol s] := by
    rcases hs with rfl | rfl <;>
      exact spells_bracket _ (by simp [Symbol.IsWordOperator]) (by simp [Symbol.TakesEquals])
  have hclose := hitems.append (hbracket (.inr rfl))
    fun rest _ => stops_symbol (.inr (.inr rfl)) rest
  have hopen := (hbracket (.inl rfl)).append hclose fun _ _ => trivial
  have hquery := htable.spells.append hopen fun rest _ => by
    rw [List.append_assoc]
    exact stops_symbol (.inr (.inl rfl)) _
  have htokens : HasTokens (text ++ "[" ++ ",".intercalate (parts.map (·.1)) ++ "]")
      (.word table :: .symbol .openBracket :: (ts ++ [.symbol .closeBracket])) := by
    refine Spells.hasTokens (?_ : Spells (fun _ => True) _ _) trivial
    simpa [String.toList_intercalate, Symbol.text, Function.comp_def] using hquery
  refine ⟨_, (parse_of_derives htokens (.mk table hderives)).1 hn, rfl, ?_, ?_⟩
  · rw [table_appendAll]
    rfl
  · rw [directives_appendAll]
    rfl

/-- A column, nothing, and a clause. -/
def threeParts : List (String × Option Directive) :=
  [("a", some (.column "a")), (" ", none), ("by(b)", some (.clause .grouping (.column "b")))]

theorem isItemText_threeParts : ∀ p ∈ threeParts, IsItemText p.1 p.2 := by
  have hcolumn : HasTokens "a" [.word "a"] :=
    hasTokens_iff_lexes.2 (lexes_of_atMost (n := 4) (by decide +kernel) (by decide +kernel))
  have hclause : HasTokens "by(b)"
      [.word "by", .symbol .openParen, .word "b", .symbol .closeParen] :=
    hasTokens_iff_lexes.2 (lexes_of_atMost (n := 8) (by decide +kernel) (by decide +kernel))
  have hcall : Derives 0 [.word "by", .symbol .openParen, .word "b", .symbol .closeParen]
      (.call "by" [.column "b"]) :=
    .call "by" [([.word "b"], .column "b")] (.last _)
      (by simpa using (Derives.column "b").mono (Nat.zero_le _))
  have hitem := DerivesItem.expression ((Derives.column "a").mono (Nat.zero_le _)) (by simp)
    (by simp) (.other id)
  have hgrouping := DerivesItem.expression (hcall.mono (Nat.zero_le _)) (by simp) (by simp)
    (.clause .grouping (.column "b"))
  simp only [threeParts, List.forall_mem_cons]
  refine ⟨?_, ?_, ?_, by simp⟩
  · exact (Directive.parse_of_derives hcolumn hitem).1 (by decide)
  · intro c hc
    have hspace : c = ' ' := by simpa using hc
    subst hspace
    rfl
  · exact (Directive.parse_of_derives hclause hgrouping).1 (by decide)

theorem Query.threeParts_joined : ∃ q, parse "t[a, ,by(b)]" = .ok q ∧
    q = (Query.new "t").appendAll [.column "a", .clause .grouping (.column "b")] ∧ q.table = "t" ∧
      q.directives = [.column "a", .clause .grouping (.column "b")] := by
  have htable : HasTokens "t" [.word "t"] :=
    hasTokens_word_iff.2 ⟨isWord_of_all "t" (by decide +kernel), by decide⟩
  have htext : "t" ++ "[" ++ ",".intercalate (threeParts.map (·.1)) ++ "]" = "t[a, ,by(b)]" := by
    decide
  have hjoined := parse_joined htable isItemText_threeParts
  rwa [htext] at hjoined

end QueryNotation
