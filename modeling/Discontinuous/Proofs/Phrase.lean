import Discontinuous.Proofs.Rendering

/-!
Phrases. The notation has a context-free grammar over the kinds of lexemes. It derives what lines
are written with, so that its sentences are the lexemes that are recognized.
-/
namespace Discontinuous.Script

/-- The phrases of the notation. -/
inductive Phrase where
  | line
  | directive
  | clause
  | children
  | predicate
  | args
  | arg
  | entry
deriving DecidableEq

namespace Phrase

open LexemeKind

abbrev Part := Symbol LexemeKind Phrase

def kind (k : LexemeKind) : Part := .terminal k

def phrase (p : Phrase) : Part := .nonterminal p

/-- The productions of the notation. -/
def productions : List (ContextFreeRule LexemeKind Phrase) :=
  [⟨line, [phrase clause]⟩,
    ⟨line, [phrase entry]⟩,
    ⟨line, [phrase directive]⟩,
    ⟨directive, [kind percent, kind ident, kind ident]⟩,
    ⟨clause, [phrase predicate, kind arrow, phrase children]⟩,
    ⟨clause, [phrase predicate, kind arrow, phrase children, kind atSign, kind number]⟩,
    ⟨children, [phrase predicate]⟩,
    ⟨children, [phrase predicate, phrase predicate]⟩,
    ⟨predicate, [kind ident, kind openParen, phrase args, kind closeParen]⟩,
    ⟨args, [phrase arg]⟩,
    ⟨args, [phrase args, kind comma, phrase arg]⟩,
    ⟨arg, [kind ident]⟩,
    ⟨arg, [phrase arg, kind ident]⟩,
    ⟨entry, [kind ident, kind arrow, kind string]⟩,
    ⟨entry, [kind ident, kind arrow, kind string, kind atSign, kind number]⟩]

abbrev grammar : ContextFreeGrammar LexemeKind := ⟨Phrase, line, productions.toFinset⟩

/-- Lexemes that a phrase is derived to. -/
def Derives (p : Phrase) (xs : List Lexeme) : Prop :=
  grammar.Derives [phrase p] (xs.map fun x => kind x.kind)

/-- Lexemes that are divided among the parts of a production, where `M` says what phrases may be. -/
def Fits (M : Phrase → List Lexeme → Prop) : List Part → List Lexeme → Prop
  | [], xs => xs = []
  | .terminal k :: parts, xs => ∃ x ys, xs = x :: ys ∧ x.kind = k ∧ Fits M parts ys
  | .nonterminal p :: parts, xs => ∃ ys zs, xs = ys ++ zs ∧ M p ys ∧ Fits M parts zs

variable {M : Phrase → List Lexeme → Prop} {parts parts' : List Part} {xs : List Lexeme}

theorem fits_append : Fits M (parts ++ parts') xs ↔
    ∃ ys zs, xs = ys ++ zs ∧ Fits M parts ys ∧ Fits M parts' zs := by
  induction parts generalizing xs with
  | nil => simp [Fits]
  | cons part parts ih =>
      cases part with
      | terminal k =>
          simp only [List.cons_append, Fits, ih]
          constructor
          · rintro ⟨x, _, rfl, hk, ys, zs, rfl, hys, hzs⟩
            exact ⟨x :: ys, zs, rfl, ⟨x, ys, rfl, hk, hys⟩, hzs⟩
          · rintro ⟨_, zs, rfl, ⟨x, ys, rfl, hk, hys⟩, hzs⟩
            exact ⟨x, ys ++ zs, rfl, hk, ys, zs, rfl, hys, hzs⟩
      | nonterminal p =>
          simp only [List.cons_append, Fits, ih]
          constructor
          · rintro ⟨us, _, rfl, hp, ys, zs, rfl, hys, hzs⟩
            exact ⟨us ++ ys, zs, by rw [List.append_assoc], ⟨us, ys, rfl, hp, hys⟩, hzs⟩
          · rintro ⟨_, zs, rfl, ⟨us, ys, rfl, hp, hys⟩, hzs⟩
            exact ⟨us, ys ++ zs, by rw [List.append_assoc], hp, ys, zs, rfl, hys, hzs⟩

theorem fits_kinds (xs : List Lexeme) : Fits M (xs.map fun x => kind x.kind) xs := by
  induction xs with
  | nil => rfl
  | cons x xs ih => exact ⟨x, xs, rfl, rfl, ih⟩

/-- Whatever the productions allow, derivations allow. -/
theorem fits_of_derives (hM : ∀ r ∈ productions, ∀ ys, Fits M r.output ys → M r.input ys)
    (h : grammar.Derives parts (xs.map fun x => kind x.kind)) : Fits M parts xs := by
  induction h using Relation.ReflTransGen.head_induction_on with
  | refl => exact fits_kinds xs
  | head hstep _ ih =>
      obtain ⟨r, hr, hrewrites⟩ := hstep
      obtain ⟨before, after, rfl, rfl⟩ := hrewrites.exists_parts
      obtain ⟨_, zs, rfl, hys, hzs⟩ := fits_append.mp ih
      obtain ⟨us, ys, rfl, hus, hys⟩ := fits_append.mp hys
      refine fits_append.mpr ⟨us ++ ys, zs, rfl, fits_append.mpr ⟨us, ys, rfl, hus, ?_⟩, hzs⟩
      exact ⟨ys, [], by simp, hM r (List.mem_toFinset.mp hr) ys hys, rfl⟩

theorem derives_of_fits (h : Fits Derives parts xs) :
    grammar.Derives parts (xs.map fun x => kind x.kind) := by
  induction parts generalizing xs with
  | nil =>
      cases h
      exact .refl []
  | cons part parts ih =>
      cases part with
      | terminal k =>
          obtain ⟨x, ys, rfl, rfl, hys⟩ := h
          exact (ih hys).append_left [kind x.kind]
      | nonterminal p =>
          obtain ⟨ys, zs, rfl, hp, hzs⟩ := h
          rw [List.map_append]
          exact (ContextFreeGrammar.Derives.append_right hp parts).trans
            ((ih hzs).append_left _)

theorem derives_of_production {r : ContextFreeRule LexemeKind Phrase} (hr : r ∈ productions)
    (h : Fits Derives r.output xs) : Derives r.input xs := by
  have hstep : grammar.Produces [phrase r.input] r.output :=
    ⟨r, List.mem_toFinset.mpr hr, ContextFreeRule.Rewrites.input_output⟩
  exact hstep.trans_derives (derives_of_fits h)

/-- What the syntax trees of a phrase are written with. -/
def Spelled : Phrase → List Lexeme → Prop
  | line, xs => ∃ l : Line, l.Renders xs
  | directive, xs => ∃ name argument, (Line.directive name argument).Renders xs
  | clause, xs => ∃ lhs left right cost, (Line.clause lhs left right cost).Renders xs
  | children, xs => ∃ (left : Predicate) (right : Option Predicate), left.Formed ∧
      (∀ p ∈ right, p.Formed) ∧ xs.map Lexeme.sign = Line.childSigns left right
  | predicate, xs => ∃ p : Predicate, p.Formed ∧ xs.map Lexeme.sign = p.signs
  | args, xs => ∃ args : List (List String), args ≠ [] ∧ (∀ arg ∈ args, arg ≠ []) ∧
      xs.map Lexeme.sign = Predicate.argSigns args
  | arg, xs => ∃ vars : List String, vars ≠ [] ∧ xs.map Lexeme.sign = vars.map .ident
  | entry, xs => ∃ label word cost, (Line.entry label word cost).Renders xs

theorem exists_costSigns (h : Fits Spelled [kind atSign, kind number] xs) :
    ∃ literal, xs.map Lexeme.sign = Line.costSigns (some literal) := by
  obtain ⟨x, _, rfl, hx, y, _, rfl, hy, rfl⟩ := h
  refine ⟨y.text, ?_⟩
  rw [List.map_cons, List.map_cons, (Lexeme.sign_eq_mark rfl).mpr hx,
    Lexeme.sign_eq_number.mpr ⟨hy, rfl⟩]
  rfl

theorem spelled_clause {ys : List Lexeme} {cost : Option Text}
    (h : Fits Spelled [phrase predicate, kind arrow, phrase children] xs)
    (hcost : ys.map Lexeme.sign = Line.costSigns cost) : Spelled clause (xs ++ ys) := by
  obtain ⟨us, _, rfl, ⟨lhs, hlhs, hus⟩, x, _, rfl, hx, vs, _, rfl, hvs, rfl⟩ := h
  obtain ⟨left, right, hleft, hright, hvs⟩ := hvs
  refine ⟨lhs, left, right, cost, ⟨hlhs, hleft, hright⟩, ?_⟩
  simp [Line.signs, hus, hvs, hcost, (Lexeme.sign_eq_mark rfl).mpr hx]

theorem spelled_entry {ys : List Lexeme} {cost : Option Text}
    (h : Fits Spelled [kind ident, kind arrow, kind string] xs)
    (hcost : ys.map Lexeme.sign = Line.costSigns cost) : Spelled entry (xs ++ ys) := by
  obtain ⟨x, _, rfl, hx, y, _, rfl, hy, z, _, rfl, hz, rfl⟩ := h
  refine ⟨x.name, z.text, cost, trivial, ?_⟩
  simp [Line.signs, hcost, Lexeme.sign_eq_ident.mpr ⟨hx, rfl⟩, (Lexeme.sign_eq_mark rfl).mpr hy,
    Lexeme.sign_eq_string.mpr ⟨hz, rfl⟩]

theorem spelled_directive (h : Fits Spelled [kind percent, kind ident, kind ident] xs) :
    Spelled directive xs := by
  obtain ⟨x, _, rfl, hx, y, _, rfl, hy, z, _, rfl, hz, rfl⟩ := h
  refine ⟨y.name, z.name, trivial, ?_⟩
  simp [Line.signs, (Lexeme.sign_eq_mark rfl).mpr hx, Lexeme.sign_eq_ident.mpr ⟨hy, rfl⟩,
    Lexeme.sign_eq_ident.mpr ⟨hz, rfl⟩]

theorem spelled_predicate
    (h : Fits Spelled [kind ident, kind openParen, phrase args, kind closeParen] xs) :
    Spelled predicate xs := by
  obtain ⟨x, _, rfl, hx, y, _, rfl, hy, us, _, rfl, hus, z, _, rfl, hz, rfl⟩ := h
  obtain ⟨args, hargs, hvars, hus⟩ := hus
  refine ⟨⟨x.name, args⟩, ⟨hargs, hvars⟩, ?_⟩
  simp [Predicate.signs, hus, Lexeme.sign_eq_ident.mpr ⟨hx, rfl⟩,
    (Lexeme.sign_eq_mark rfl).mpr hy, (Lexeme.sign_eq_mark rfl).mpr hz]

theorem spelled_args (h : Fits Spelled [phrase args, kind comma, phrase arg] xs) :
    Spelled args xs := by
  obtain ⟨us, _, rfl, ⟨args, hargs, hsome, hus⟩, x, _, rfl, hx, vs, _, rfl, harg, rfl⟩ := h
  obtain ⟨vars, hvars, hvs⟩ := harg
  refine ⟨args ++ [vars], by simp, ?_, ?_⟩
  · intro a ha
    rcases List.mem_append.mp ha with ha | ha
    · exact hsome a ha
    · rw [List.mem_singleton.mp ha]
      exact hvars
  · rw [Predicate.argSigns_concat hargs]
    simp [hus, hvs, (Lexeme.sign_eq_mark rfl).mpr hx]

theorem spelled_line {p : Phrase} (hp : p = clause ∨ p = entry ∨ p = directive)
    (h : Fits Spelled [phrase p] xs) : Spelled line xs := by
  obtain ⟨ys, _, rfl, h, rfl⟩ := h
  rw [List.append_nil]
  rcases hp with rfl | rfl | rfl
  · obtain ⟨lhs, left, right, cost, h⟩ := h
    exact ⟨_, h⟩
  · obtain ⟨label, word, cost, h⟩ := h
    exact ⟨_, h⟩
  · obtain ⟨name, argument, h⟩ := h
    exact ⟨_, h⟩

/-- Every production makes a syntax tree of syntax trees. -/
theorem spelled_of_production : ∀ r ∈ productions, ∀ ys, Fits Spelled r.output ys →
    Spelled r.input ys := by
  intro r hr ys h
  have hfree : ([] : List Lexeme).map Lexeme.sign = Line.costSigns none := rfl
  simp only [productions, List.mem_cons, List.not_mem_nil, or_false] at hr
  rcases hr with rfl | rfl | rfl | rfl | rfl | rfl | rfl | rfl | rfl | rfl | rfl | rfl | rfl |
    rfl | rfl
  · exact spelled_line (.inl rfl) h
  · exact spelled_line (.inr (.inl rfl)) h
  · exact spelled_line (.inr (.inr rfl)) h
  · exact spelled_directive h
  · rw [← List.append_nil ys]
    exact spelled_clause h hfree
  · have h : Fits Spelled ([phrase predicate, kind arrow, phrase children] ++
        [kind atSign, kind number]) ys := h
    obtain ⟨us, vs, rfl, hus, hvs⟩ := fits_append.mp h
    obtain ⟨literal, hcost⟩ := exists_costSigns hvs
    exact spelled_clause hus hcost
  · obtain ⟨us, _, rfl, ⟨left, hleft, hus⟩, rfl⟩ := h
    exact ⟨left, none, hleft, nofun, by simpa [Line.childSigns] using hus⟩
  · obtain ⟨us, _, rfl, ⟨left, hleft, hus⟩, vs, _, rfl, ⟨right, hright, hvs⟩, rfl⟩ := h
    exact ⟨left, some right, hleft, by simpa using hright, by simp [Line.childSigns, hus, hvs]⟩
  · exact spelled_predicate h
  · obtain ⟨us, _, rfl, ⟨vars, hvars, hus⟩, rfl⟩ := h
    refine ⟨[vars], by simp, by simpa using hvars, ?_⟩
    rw [Predicate.argSigns_singleton, List.append_nil, hus]
  · exact spelled_args h
  · obtain ⟨x, _, rfl, hx, rfl⟩ := h
    exact ⟨[x.name], by simp, by simp [Lexeme.sign_eq_ident.mpr ⟨hx, rfl⟩]⟩
  · obtain ⟨us, _, rfl, ⟨vars, hvars, hus⟩, x, _, rfl, hx, rfl⟩ := h
    exact ⟨vars ++ [x.name], by simp, by simp [hus, Lexeme.sign_eq_ident.mpr ⟨hx, rfl⟩]⟩
  · rw [← List.append_nil ys]
    exact spelled_entry h hfree
  · have h : Fits Spelled ([kind ident, kind arrow, kind string] ++
        [kind atSign, kind number]) ys := h
    obtain ⟨us, vs, rfl, hus, hvs⟩ := fits_append.mp h
    obtain ⟨literal, hcost⟩ := exists_costSigns hvs
    exact spelled_entry hus hcost

theorem spelled_of_derives {p : Phrase} (h : Derives p xs) : Spelled p xs := by
  obtain ⟨ys, _, rfl, hp, rfl⟩ := fits_of_derives spelled_of_production h
  rwa [List.append_nil]

/-! Syntax trees are derived. -/

theorem derives_arg {vars : List String} (hvars : vars ≠ [])
    (h : xs.map Lexeme.sign = vars.map .ident) : Derives arg xs := by
  induction vars using List.reverseRecOn generalizing xs with
  | nil => exact absurd rfl hvars
  | append_singleton vars name ih =>
      rw [List.map_append] at h
      obtain ⟨us, ys, rfl, hus, hys⟩ := List.map_eq_append_iff.mp h
      obtain ⟨x, zs, rfl, hx, hzs⟩ := List.map_eq_cons_iff.mp hys
      obtain rfl := List.map_eq_nil_iff.mp hzs
      obtain ⟨hkind, -⟩ := Lexeme.sign_eq_ident.mp hx
      by_cases hempty : vars = []
      · subst hempty
        obtain rfl := List.map_eq_nil_iff.mp hus
        have hone : Fits Derives [kind ident] [x] := ⟨x, [], rfl, hkind, rfl⟩
        exact derives_of_production (r := ⟨arg, [kind ident]⟩) (by decide) hone
      · have hmore : Fits Derives [phrase arg, kind ident] (us ++ [x]) :=
          ⟨us, [x], rfl, ih hempty hus, x, [], rfl, hkind, rfl⟩
        exact derives_of_production (r := ⟨arg, [phrase arg, kind ident]⟩) (by decide) hmore

theorem derives_args {vars : List (List String)} (hvars : vars ≠ [])
    (hsome : ∀ arg ∈ vars, arg ≠ []) (h : xs.map Lexeme.sign = Predicate.argSigns vars) :
    Derives args xs := by
  induction vars using List.reverseRecOn generalizing xs with
  | nil => exact absurd rfl hvars
  | append_singleton vars last ih =>
      have hlast := hsome last (by simp)
      by_cases hempty : vars = []
      · subst hempty
        rw [List.nil_append, Predicate.argSigns_singleton] at h
        have hone : Fits Derives [phrase arg] xs :=
          ⟨xs, [], by rw [List.append_nil], derives_arg hlast h, rfl⟩
        exact derives_of_production (r := ⟨args, [phrase arg]⟩) (by decide) hone
      · rw [Predicate.argSigns_concat hempty] at h
        obtain ⟨us, ys, rfl, hus, hys⟩ := List.map_eq_append_iff.mp h
        obtain ⟨x, zs, rfl, hx, hzs⟩ := List.map_eq_cons_iff.mp hys
        have hbefore := ih hempty (fun arg harg => hsome arg (List.mem_append_left _ harg)) hus
        have hmore : Fits Derives [phrase args, kind comma, phrase arg] (us ++ x :: zs) :=
          ⟨us, x :: zs, rfl, hbefore, x, zs, rfl, (Lexeme.sign_eq_mark rfl).mp hx, zs, [],
            by rw [List.append_nil], derives_arg hlast hzs, rfl⟩
        exact derives_of_production (r := ⟨args, [phrase args, kind comma, phrase arg]⟩)
          (by decide) hmore

theorem derives_predicate {p : Predicate} (hp : p.Formed) (h : xs.map Lexeme.sign = p.signs) :
    Derives predicate xs := by
  obtain ⟨x, ys, rfl, hx, hys⟩ := List.map_eq_cons_iff.mp h
  obtain ⟨y, zs, rfl, hy, hzs⟩ := List.map_eq_cons_iff.mp hys
  obtain ⟨us, vs, rfl, hus, hvs⟩ := List.map_eq_append_iff.mp hzs
  obtain ⟨z, ws, rfl, hz, hws⟩ := List.map_eq_cons_iff.mp hvs
  obtain rfl := List.map_eq_nil_iff.mp hws
  have hparts : Fits Derives [kind ident, kind openParen, phrase args, kind closeParen]
      (x :: y :: (us ++ [z])) :=
    ⟨x, _, rfl, (Lexeme.sign_eq_ident.mp hx).1, y, _, rfl, (Lexeme.sign_eq_mark rfl).mp hy, us,
      [z], rfl, derives_args hp.some_args hp.some_variables hus, z, [], rfl,
      (Lexeme.sign_eq_mark rfl).mp hz, rfl⟩
  exact derives_of_production
    (r := ⟨predicate, [kind ident, kind openParen, phrase args, kind closeParen]⟩) (by decide)
    hparts

theorem derives_children {left : Predicate} {right : Option Predicate} (hleft : left.Formed)
    (hright : ∀ p ∈ right, p.Formed) (h : xs.map Lexeme.sign = Line.childSigns left right) :
    Derives children xs := by
  obtain ⟨us, vs, rfl, hus, hvs⟩ := List.map_eq_append_iff.mp h
  cases right with
  | none =>
      obtain rfl := List.map_eq_nil_iff.mp hvs
      have hone : Fits Derives [phrase predicate] (us ++ []) :=
        ⟨us, [], rfl, derives_predicate hleft hus, rfl⟩
      exact derives_of_production (r := ⟨children, [phrase predicate]⟩) (by decide) hone
  | some right =>
      have htwo : Fits Derives [phrase predicate, phrase predicate] (us ++ vs) :=
        ⟨us, vs, rfl, derives_predicate hleft hus, vs, [], by rw [List.append_nil],
          derives_predicate (hright right rfl) hvs, rfl⟩
      exact derives_of_production (r := ⟨children, [phrase predicate, phrase predicate]⟩)
        (by decide) htwo

/-- A cost is no phrase of its own: the productions with a cost repeat those without. -/
theorem derives_with_cost {p : Phrase} {cost : Option Text} {ys : List Lexeme}
    (hfree : ⟨p, parts⟩ ∈ productions)
    (hpriced : ⟨p, parts ++ [kind atSign, kind number]⟩ ∈ productions)
    (hxs : Fits Derives parts xs) (hcost : ys.map Lexeme.sign = Line.costSigns cost) :
    Derives p (xs ++ ys) := by
  cases cost with
  | none =>
      obtain rfl := List.map_eq_nil_iff.mp hcost
      rw [List.append_nil]
      exact derives_of_production hfree hxs
  | some literal =>
      obtain ⟨x, zs, rfl, hx, hzs⟩ := List.map_eq_cons_iff.mp hcost
      obtain ⟨y, ws, rfl, hy, hws⟩ := List.map_eq_cons_iff.mp hzs
      obtain rfl := List.map_eq_nil_iff.mp hws
      have hcost : Fits Derives [kind atSign, kind number] [x, y] :=
        ⟨x, [y], rfl, (Lexeme.sign_eq_mark rfl).mp hx, y, [], rfl,
          (Lexeme.sign_eq_number.mp hy).1, rfl⟩
      exact derives_of_production hpriced (fits_append.mpr ⟨xs, _, rfl, hxs, hcost⟩)

theorem derives_of_renders {l : Line} (h : l.Renders xs) : Derives line xs := by
  have hwhole : ∀ p, ⟨line, [phrase p]⟩ ∈ productions → Derives p xs → Derives line xs := by
    intro p hp hxs
    exact derives_of_production hp ⟨xs, [], by rw [List.append_nil], hxs, rfl⟩
  obtain ⟨hformed, hsigns⟩ := h
  cases l with
  | directive name argument =>
      obtain ⟨x, ys, rfl, hx, hys⟩ := List.map_eq_cons_iff.mp hsigns
      obtain ⟨y, zs, rfl, hy, hzs⟩ := List.map_eq_cons_iff.mp hys
      obtain ⟨z, ws, rfl, hz, hws⟩ := List.map_eq_cons_iff.mp hzs
      obtain rfl := List.map_eq_nil_iff.mp hws
      have hparts : Fits Derives [kind percent, kind ident, kind ident] [x, y, z] :=
        ⟨x, _, rfl, (Lexeme.sign_eq_mark rfl).mp hx, y, _, rfl, (Lexeme.sign_eq_ident.mp hy).1, z,
          [], rfl, (Lexeme.sign_eq_ident.mp hz).1, rfl⟩
      exact hwhole directive (by decide) (derives_of_production
        (r := ⟨directive, [kind percent, kind ident, kind ident]⟩) (by decide) hparts)
  | entry label word cost =>
      obtain ⟨x, ys, rfl, hx, hys⟩ := List.map_eq_cons_iff.mp hsigns
      obtain ⟨y, zs, rfl, hy, hzs⟩ := List.map_eq_cons_iff.mp hys
      obtain ⟨z, ws, rfl, hz, hws⟩ := List.map_eq_cons_iff.mp hzs
      have hparts : Fits Derives [kind ident, kind arrow, kind string] [x, y, z] :=
        ⟨x, _, rfl, (Lexeme.sign_eq_ident.mp hx).1, y, _, rfl, (Lexeme.sign_eq_mark rfl).mp hy, z,
          [], rfl, (Lexeme.sign_eq_string.mp hz).1, rfl⟩
      exact hwhole entry (by decide) (derives_with_cost (by decide) (by decide) hparts hws)
  | clause lhs left right cost =>
      obtain ⟨hlhs, hleft, hright⟩ := hformed
      obtain ⟨us, ys, rfl, hus, hys⟩ := List.map_eq_append_iff.mp hsigns
      obtain ⟨x, zs, rfl, hx, hzs⟩ := List.map_eq_cons_iff.mp hys
      obtain ⟨vs, ws, rfl, hvs, hws⟩ := List.map_eq_append_iff.mp hzs
      have hparts : Fits Derives [phrase predicate, kind arrow, phrase children] (us ++ x :: vs) :=
        ⟨us, _, rfl, derives_predicate hlhs hus, x, _, rfl, (Lexeme.sign_eq_mark rfl).mp hx, vs,
          [], by rw [List.append_nil], derives_children hleft hright hvs, rfl⟩
      have hclause := derives_with_cost (p := clause) (by decide) (by decide) hparts hws
      refine hwhole clause (by decide) ?_
      rwa [List.append_assoc, List.cons_append] at hclause

end Phrase

/-- The lexemes are a sentence of the notation. -/
def Derivable (xs : List Lexeme) : Prop := xs.map (·.kind) ∈ Phrase.grammar.language

/-- The notation derives what lines are written with. -/
theorem derivable_iff {xs : List Lexeme} : Derivable xs ↔ ∃ line : Line, line.Renders xs := by
  rw [Derivable, ContextFreeGrammar.mem_language_iff, List.map_map]
  constructor
  · exact Phrase.spelled_of_derives
  · rintro ⟨line, h⟩
    exact Phrase.derives_of_renders h

/-- What is recognized is what the notation derives. -/
theorem isSome_ofLexemes?_iff {xs : List Lexeme} :
    (Line.ofLexemes? xs).isSome = true ↔ Derivable xs := by
  simp only [Option.isSome_iff_exists, derivable_iff, Line.ofLexemes?_eq_some_iff]

end Discontinuous.Script
