import QueryNotation.Proofs.Numerals
import QueryNotation.Proofs.Regrouping

/-!
# The tokens of a printed tree

The notation of a tree is read as tokens that can be told from the tree,
as long as its names are words and its constants are read as themselves.
If the tree follows precedence, then the grammar gives its tokens the
same tree again.
-/

namespace QueryNotation

open BinaryOperator Text

/-! ## Tokens -/

def UnaryOperator.sign : UnaryOperator → Symbol
  | positive => .plus
  | negative => .minus
  | not => .exclamation

def BinaryOperator.sign : BinaryOperator → Symbol
  | multiply => .star
  | divide => .slash
  | plus => .plus
  | subtract => .minus
  | equal => .equal
  | notEqual => .notEqual
  | less => .less
  | lessEqual => .lessEqual
  | greater => .greater
  | greaterEqual => .greaterEqual
  | and => .and
  | or => .or

theorem UnaryOperator.ofToken?_sign (op : UnaryOperator) :
    ofToken? (.symbol op.sign) = some op := by cases op <;> rfl

theorem BinaryOperator.ofToken?_sign (op : BinaryOperator) :
    ofToken? (.symbol op.sign) = some op := by cases op <;> rfl

theorem UnaryOperator.eq_sign {t : Token} {op : UnaryOperator} (h : ofToken? t = some op) :
    t = .symbol op.sign := by
  cases t with
  | symbol s => cases s <;> cases h <;> rfl
  | _ => cases h

theorem BinaryOperator.eq_sign {t : Token} {op : BinaryOperator} (h : ofToken? t = some op) :
    t = .symbol op.sign := by
  cases t with
  | symbol s => cases s <;> cases h <;> rfl
  | _ => cases h

theorem BinaryOperator.atLevel?_sign (op : BinaryOperator) :
    atLevel? op.level (.symbol op.sign) = some op :=
  atLevel?_eq_some_iff.2 ⟨op.ofToken?_sign, rfl⟩

namespace Directive

mutual

def tokens : Directive → List Token
  | column name => [.ofWord name]
  | constant value => [.literal value]
  | call name arguments =>
    .word name :: .symbol .openParen ::
      ([.symbol .comma].intercalate (tokensAll arguments) ++ [.symbol .closeParen])
  | group inner => .symbol .openParen :: (inner.tokens ++ [.symbol .closeParen])
  | unary op operand => .symbol op.sign :: operand.tokens
  | binary op left right => left.tokens ++ .symbol op.sign :: right.tokens
  | distinct | all | clause _ _ | order _ _ => []

def tokensAll : List Directive → List (List Token)
  | [] => []
  | d :: rest => d.tokens :: tokensAll rest

end

theorem tokensAll_eq_map (ds : List Directive) : tokensAll ds = ds.map tokens := by
  induction ds with
  | nil => rw [tokensAll, List.map_nil]
  | cons d ds ih => rw [tokensAll, ih, List.map_cons]

end Directive

theorem isSequential_tokens : IsSequential Directive.tokens (fun op => [.symbol op.sign])
    fun op => [.symbol op.sign] where
  unary op d := by
    rw [Directive.tokens]
    rfl
  binary op a b := by
    rw [Directive.tokens]
    rfl
  group a b h := by rw [Directive.tokens, Directive.tokens, h]
  call name xs ys h := by
    rw [Directive.tokens, Directive.tokens, Directive.tokensAll_eq_map,
      Directive.tokensAll_eq_map, h]

/-! ## Legible trees -/

/-- No operator before the text takes a part of it along. -/
def Opens (text : List Char) : Prop := ∃ c rest, text = c :: rest ∧ c ≠ '='

def Value.IsLegible (v : Value) : Prop :=
  Spells Delimits v.text [.literal v] ∧ Opens v.text

/-- The expressions whose names are words, with the meaning that words have
in their place, and whose constants have a property. -/
inductive Directive.Worded (property : Value → Prop) : Directive → Prop where
  | column {name : String} (hword : IsWord name) (hname : name ∉ ["true", "false"]) :
      Worded property (.column name)
  | constant {value : Value} (h : property value) : Worded property (.constant value)
  | call {name : String} {arguments : List Directive} (hword : IsWord name)
      (hname : name ∉ ["true", "false", "and", "or"])
      (h : ∀ d ∈ arguments, Worded property d) : Worded property (.call name arguments)
  | group {d : Directive} (h : Worded property d) : Worded property (.group d)
  | unary (op : UnaryOperator) {d : Directive} (h : Worded property d) :
      Worded property (.unary op d)
  | binary (op : BinaryOperator) {a b : Directive} (ha : Worded property a)
      (hb : Worded property b) : Worded property (.binary op a b)

/-- The expressions whose notation is read as their own tokens. -/
abbrev Directive.IsLegible (d : Directive) : Prop := d.Worded Value.IsLegible

theorem Directive.Worded.mono {property other : Value → Prop} {d : Directive}
    (h : d.Worded property) (hproperty : ∀ v, property v → other v) : d.Worded other := by
  induction h with
  | column hword hname => exact .column hword hname
  | constant h => exact .constant (hproperty _ h)
  | call hword hname h ih => exact .call hword hname ih
  | group h ih => exact .group ih
  | unary op h ih => exact .unary op ih
  | binary op ha hb iha ihb => exact .binary op iha ihb

theorem Token.ofWord_of_notMem {name : String} (h : name ∉ ["true", "false", "and", "or"]) :
    ofWord name = .word name := by
  unfold ofWord
  split
  next => exact (h (by simp)).elim
  next => exact (h (by simp)).elim
  next => exact (h (by simp)).elim
  next => exact (h (by simp)).elim
  next => rfl

theorem Token.ofWord_column {name : String} (h : name ∉ ["true", "false"]) :
    ofWord name = .word name ∨ (name = "and" ∧ ofWord name = .symbol .and) ∨
      (name = "or" ∧ ofWord name = .symbol .or) := by
  by_cases hand : name = "and"
  · exact .inr (.inl ⟨hand, hand ▸ rfl⟩)
  by_cases hor : name = "or"
  · exact .inr (.inr ⟨hor, hor ▸ rfl⟩)
  · refine .inl (ofWord_of_notMem ?_)
    simp_all

theorem Directive.Worded.isExpression {property : Value → Prop} {d : Directive}
    (h : d.Worded property) : d.IsExpression := by
  induction h with
  | column hword hname => exact .column _
  | constant h => exact .constant _
  | call hword hname h ih => exact .call _ ih
  | group h ih => exact .group ih
  | unary op h ih => exact .unary op ih
  | binary op ha hb iha ihb => exact .binary op iha ihb

/-! ## Reading the notation of a tree -/

theorem delimits_nil : Delimits [] := by
  intro c hc
  cases hc

theorem delimits_cons {c : Char} {rest : List Char} (hc : continuesWord c = false ∧ c ≠ '.') :
    Delimits (c :: rest) := by
  intro d hd
  cases hd
  exact hc

theorem noEquals_cons {c : Char} {rest : List Char} (hc : c ≠ '=') : NoEquals (c :: rest) := by
  intro h
  cases h
  exact hc rfl

theorem spells_bracket (kind : List Char → Prop) {s : Symbol} (hs : ¬ s.IsWordOperator)
    (hequals : ¬ s.TakesEquals) : Spells kind s.text.toList [.symbol s] :=
  (spells_symbol hs).mono fun _ _ h => (hequals h).elim

theorem spells_openParen (kind : List Char → Prop) : Spells kind ['('] [.symbol .openParen] :=
  spells_bracket (s := .openParen) kind (by simp [Symbol.IsWordOperator]) (by simp [Symbol.TakesEquals])

theorem spells_closeParen (kind : List Char → Prop) : Spells kind [')'] [.symbol .closeParen] :=
  spells_bracket (s := .closeParen) kind (by simp [Symbol.IsWordOperator]) (by simp [Symbol.TakesEquals])

theorem spells_comma (kind : List Char → Prop) : Spells kind [','] [.symbol .comma] :=
  spells_bracket (s := .comma) kind (by simp [Symbol.IsWordOperator]) (by simp [Symbol.TakesEquals])

theorem isWord_of_all (name : String) (h : (name.toList.head?.any Text.startsWord &&
    name.toList.all Text.continuesWord) = true) : IsWord name := by
  rw [Bool.and_eq_true, Option.any_eq_true, List.all_eq_true] at h
  exact h

/-- A word operator comes with a space on each side. -/
theorem spells_wordOperator {name : String} {s : Symbol} (hword : IsWord name)
    (hs : Token.ofWord name = .symbol s) :
    Spells NoEquals (' ' :: (name.toList ++ [' '])) [.symbol s] := by
  have hname := spells_word hword
  rw [hs] at hname
  have hspace : Spells NoEquals [' '] [] := spells_blank (.nil NoEquals)
  exact spells_blank (hname.append hspace fun rest _ => delimits_cons (by decide))

theorem BinaryOperator.symbol_compact {op : BinaryOperator} (h : ¬ op.sign.IsWordOperator) :
    op.symbol .compact = op.sign.text := by
  cases op with
  | and | or => exact (h (by simp [sign, Symbol.IsWordOperator])).elim
  | _ => rfl

theorem spells_between (op : BinaryOperator) :
    Spells NoEquals (op.symbol .compact).toList [.symbol op.sign] := by
  by_cases hop : op.sign.IsWordOperator
  · cases op with
    | and => exact spells_wordOperator (isWord_of_all "and" (by decide)) rfl
    | or => exact spells_wordOperator (isWord_of_all "or" (by decide)) rfl
    | _ => simp [BinaryOperator.sign, Symbol.IsWordOperator] at hop
  · rw [BinaryOperator.symbol_compact hop]
    exact (spells_symbol hop).mono fun _ h _ => h

theorem spells_before (op : UnaryOperator) :
    Spells NoEquals (op.symbol .compact).toList [.symbol op.sign] := by
  have hop : ¬ op.sign.IsWordOperator := by
    cases op <;> simp [UnaryOperator.sign, Symbol.IsWordOperator]
  have hsymbol : op.symbol .compact = op.sign.text := by cases op <;> rfl
  rw [hsymbol]
  exact (spells_symbol hop).mono fun _ h _ => h

theorem Opens.noEquals {text : List Char} (h : Opens text) (rest : List Char) :
    NoEquals (text ++ rest) := by
  obtain ⟨c, text, rfl, hc⟩ := h
  exact noEquals_cons hc

theorem Opens.append {text : List Char} (h : Opens text) (rest : List Char) :
    Opens (text ++ rest) := by
  obtain ⟨c, text, rfl, hc⟩ := h
  exact ⟨c, text ++ rest, rfl, hc⟩

theorem IsWord.opens {name : String} (h : IsWord name) : Opens name.toList := by
  obtain ⟨⟨c, hhead, hstart⟩, -⟩ := h
  obtain ⟨text, hname⟩ := List.head?_eq_some_iff.1 hhead
  refine ⟨c, text, hname, ?_⟩
  rintro rfl
  exact absurd hstart (by decide)

theorem Directive.Worded.opens {d : Directive} (h : d.IsLegible) : Opens (d.render .compact) := by
  induction h with
  | column hword hname =>
      rw [render]
      exact hword.opens
  | constant h =>
      rw [render]
      exact h.2
  | call hword hname h ih =>
      rw [render, List.append_assoc]
      exact hword.opens.append _
  | group h ih =>
      rw [render]
      exact ⟨'(', _, rfl, by decide⟩
  | unary op h ih =>
      rw [render]
      have hop : Opens (op.symbol .compact).toList := by
        cases op <;> exact ⟨_, _, rfl, by decide⟩
      exact hop.append _
  | binary op ha hb iha ihb =>
      rw [render, List.append_assoc]
      exact iha.append _

theorem delimits_closeParen (rest : List Char) : Delimits (')' :: rest) :=
  delimits_cons (by decide)

theorem delimits_openParen (rest : List Char) : Delimits ('(' :: rest) :=
  delimits_cons (by decide)

theorem delimits_comma (rest : List Char) : Delimits (',' :: rest) :=
  delimits_cons (by decide)

theorem delimits_between (op : BinaryOperator) (rest : List Char) :
    Delimits ((op.symbol .compact).toList ++ rest) := by
  cases op <;> exact delimits_cons (by decide)

/-- Pieces with a comma between them, in whatever way it is written. -/
theorem spells_joined {separator : List Char} (hcomma : Spells (fun _ => True) separator [.symbol .comma])
    (hdelimits : ∀ rest, Delimits (separator ++ rest)) {pieces : List (List Char × List Token)}
    (h : ∀ p ∈ pieces, Spells Delimits p.1 p.2) :
    Spells Delimits (separator.intercalate (pieces.map (·.1)))
      ([.symbol .comma].intercalate (pieces.map (·.2))) := by
  induction pieces with
  | nil => exact .nil Delimits
  | cons p pieces ih =>
      obtain ⟨hp, hpieces⟩ := List.forall_mem_cons.1 h
      cases pieces with
      | nil => simpa using hp
      | cons q pieces =>
          have hrest := hcomma.append (ih hpieces) fun _ _ => trivial
          have hall := hp.append hrest fun rest _ => by
            rw [List.append_assoc]
            exact hdelimits _
          simpa [List.intercalate_cons_cons] using hall

theorem spells_separator : Spells (fun _ => True) ", ".toList [.symbol .comma] :=
  (spells_comma fun _ => True).append (spells_blank (.nil fun _ => True)) fun _ _ => trivial

/-- A call. Its name is read as the token that it is anywhere else. -/
theorem spells_call {name : String} {separator : List Char} {pieces : List (List Char × List Token)}
    (hword : IsWord name) (hcomma : Spells (fun _ => True) separator [.symbol .comma])
    (hdelimits : ∀ rest, Delimits (separator ++ rest))
    (h : ∀ p ∈ pieces, Spells Delimits p.1 p.2) :
    Spells Delimits (name.toList ++ '(' :: separator.intercalate (pieces.map (·.1)) ++ [')'])
      (.ofWord name :: .symbol .openParen ::
        ([.symbol .comma].intercalate (pieces.map (·.2)) ++ [.symbol .closeParen])) := by
  have hclose := (spells_joined hcomma hdelimits h).append (spells_closeParen Delimits)
    fun rest _ => delimits_closeParen rest
  have hopen := (spells_openParen fun _ => True).append hclose fun _ _ => trivial
  have hcall := (spells_word hword).append hopen fun rest _ => delimits_openParen _
  simpa using hcall

theorem delimits_separator (rest : List Char) : Delimits (", ".toList ++ rest) := delimits_comma _

/-- A call whose arguments are written with a space after each comma. -/
theorem spells_arguments {name : String} {ds : List Directive}
    {spelling : Directive → List Token} (hword : IsWord name)
    (h : ∀ d ∈ ds, Spells Delimits (d.render .compact) (spelling d)) :
    Spells Delimits ((Directive.call name ds).render .compact)
      (.ofWord name :: .symbol .openParen ::
        ([.symbol .comma].intercalate (ds.map spelling) ++ [.symbol .closeParen])) := by
  have hpieces : ∀ p ∈ ds.map fun d => (d.render .compact, spelling d), Spells Delimits p.1 p.2 := by
    intro p hp
    obtain ⟨d, hd, rfl⟩ := List.mem_map.1 hp
    exact h d hd
  have hcall := spells_call hword spells_separator delimits_separator hpieces
  rw [Directive.render, Directive.renderAll_eq_map]
  simpa only [List.map_map, Function.comp_def] using hcall

section

variable {text textₐ : List Char} {ts us : List Token}

theorem spells_group (h : Spells Delimits text ts) : Spells Delimits ('(' :: text ++ [')'])
    (.symbol .openParen :: (ts ++ [.symbol .closeParen])) := by
  have hclose := h.append (spells_closeParen Delimits) fun rest _ => delimits_closeParen rest
  have hopen := (spells_openParen fun _ => True).append hclose fun _ _ => trivial
  simpa using hopen

theorem spells_unary (op : UnaryOperator) (h : Spells Delimits text ts) (hopens : Opens text) :
    Spells Delimits ((op.symbol .compact).toList ++ text) (.symbol op.sign :: ts) :=
  (spells_before op).append h fun rest _ => hopens.noEquals rest

theorem spells_binary (op : BinaryOperator) (ha : Spells Delimits textₐ us)
    (h : Spells Delimits text ts) (hopens : Opens text) :
    Spells Delimits (textₐ ++ (op.symbol .compact).toList ++ text)
      (us ++ .symbol op.sign :: ts) := by
  have hright := (spells_between op).append h fun rest _ => hopens.noEquals rest
  have hboth := ha.append hright fun rest _ => by
    rw [List.append_assoc]
    exact delimits_between op _
  rw [List.append_assoc]
  exact hboth

end

/-- The notation of a legible tree is read as the tokens of the tree. -/
theorem spells_render {d : Directive} (h : d.IsLegible) :
    Spells Delimits (d.render .compact) d.tokens := by
  induction h with
  | column hword hname =>
      rw [Directive.render, Directive.tokens]
      exact spells_word hword
  | constant h =>
      rw [Directive.render, Directive.tokens]
      exact h.1
  | @call name arguments hword hname h ih =>
      have hcall := spells_arguments hword ih
      rwa [Token.ofWord_of_notMem hname, ← Directive.tokensAll_eq_map, ← Directive.tokens] at hcall
  | group h ih =>
      rw [Directive.render, Directive.tokens]
      exact spells_group ih
  | unary op h ih =>
      rw [Directive.render, Directive.tokens]
      exact spells_unary op ih h.opens
  | binary op ha hb iha ihb =>
      rw [Directive.render, Directive.tokens]
      exact spells_binary op iha ihb hb.opens

/-! ## The tree of the tokens -/

theorem commaJoined_intercalate (parts : List (List Token × Directive)) :
    CommaJoined parts ([.symbol .comma].intercalate (parts.map (·.1))) := by
  induction parts with
  | nil => exact .nil
  | cons p parts ih =>
      cases parts with
      | nil => simpa using CommaJoined.last p
      | cons q parts => simpa [List.intercalate_cons_cons] using CommaJoined.cons p ih

/-- The grammar gives the tokens of a tree that follows precedence the same
tree again. -/
theorem derives_tokens {level : Nat} {d : Directive} (hfits : Fits level d) (h : d.IsLegible) :
    Derives level d.tokens d := by
  induction hfits with
  | column name =>
      cases h with
      | column hword hname =>
          rw [Directive.tokens]
          apply Derives.mono (m := 0) _ (Nat.zero_le _)
          rcases Token.ofWord_column hname with hw | ⟨rfl, hw⟩ | ⟨rfl, hw⟩ <;> rw [hw]
          · exact .column name
          · exact .andColumn
          · exact .orColumn
  | constant value =>
      rw [Directive.tokens]
      exact (Derives.literal value).mono (Nat.zero_le _)
  | @call level name arguments hfits ih =>
      cases h with
      | call hword hname h =>
          have hjoined := commaJoined_intercalate (arguments.map fun d => (d.tokens, d))
          have hcall := Derives.call name _ hjoined fun p hp => by
            obtain ⟨d, hd, rfl⟩ := List.mem_map.1 hp
            exact ih d hd (h d hd)
          rw [Directive.tokens, Directive.tokensAll_eq_map]
          simp only [List.map_map, Function.comp_def, List.map_id'] at hcall
          exact hcall.mono (Nat.zero_le _)
  | group hfits ih =>
      cases h with
      | group h =>
          rw [Directive.tokens]
          exact (Derives.group (ih h)).mono (Nat.zero_le _)
  | unary op hfits ih =>
      cases h with
      | unary _ h =>
          rw [Directive.tokens]
          exact (Derives.unary op.ofToken?_sign (ih h)).mono (Nat.zero_le _)
  | @binary level op a b hlevel hfitsa hfitsb iha ihb =>
      cases h with
      | binary _ ha hb =>
          obtain ⟨tighter, htighter⟩ := Nat.exists_eq_succ_of_ne_zero (Nat.ne_of_gt op.level_pos)
          have hop := op.atLevel?_sign
          have hleft := iha ha
          have hright := ihb hb
          rw [htighter] at hop hleft hright hlevel
          rw [Directive.tokens]
          exact (Derives.binary hleft hop hright).mono hlevel

end QueryNotation
