import Discontinuous.Parser.Derivation
import Discontinuous.Proofs.Proposal

/-!
What a grammar derives from a sentence, apart from any search: the pairs of a label and a span
that it derives, and the trees that derive them at a cost. Trees that are read off back pointers
are described by a relation to the items that are proven, so that nothing else in the arena
matters to them.
-/
namespace Discontinuous

variable {α : Type}

/-- The least relation that holds of every token, and of the parent of what it holds of. -/
inductive Derivable (g : Grammar α) (sentence : List Token) : Label → Span → Prop where
  | tag {i : Nat} {t : Token} : sentence[i]? = some t →
      Derivable g sentence t.tag (.one i (i + 1))
  | unary {c : Clause α} {b s : Span} : c ∈ g.clauses → c.right = none →
      Derivable g sentence c.left b → c.join.join b ⟨0, 0, 0, 0⟩ = some s →
      Derivable g sentence c.lhs s
  | binary {c : Clause α} {r : Label} {b b' s : Span} : c ∈ g.clauses → c.right = some r →
      Derivable g sentence c.left b → Derivable g sentence r b' → c.join.join b b' = some s →
      Derivable g sentence c.lhs s

variable [Cost α]

/-- What a token costs: the cost that the lexicon has for its word and its tag, or nothing if
there is no lexicon, if the word is unknown or if it has no such tag. -/
inductive LexicalCost (lexicon : Option (Lexicon α)) (t : Token) : α → Prop where
  | listed {lex : Lexicon α} {w : Nat} {x : α} : lexicon = some lex → t.word = some w →
      lex.cost? w t.tag = some x → LexicalCost lexicon t x
  | unlisted : (∀ lex w, lexicon = some lex → t.word = some w → lex.cost? w t.tag = none) →
      LexicalCost lexicon t Cost.zero

theorem LexicalCost.tokenCost (ctx : Context α) (t : Token) :
    LexicalCost ctx.lexicon t (Parser.tokenCost ctx t) := by
  simp only [Parser.tokenCost]
  split
  next lex w hlex hw =>
    cases hx : lex.cost? w t.tag with
    | some x => exact .listed hlex hw hx
    | none =>
        refine .unlisted fun lex' w' hlex' hw' => ?_
        cases hlex.symm.trans hlex'
        cases hw.symm.trans hw'
        exact hx
  next hnone => exact .unlisted fun lex w hlex hw => absurd hw (hnone lex w hlex)

theorem LexicalCost.unique {lexicon : Option (Lexicon α)} {t : Token} {x y : α}
    (hx : LexicalCost lexicon t x) (hy : LexicalCost lexicon t y) : x = y := by
  cases hx with
  | listed hlex hw hx =>
      cases hy with
      | listed hlex' hw' hy =>
          cases hlex.symm.trans hlex'
          cases hw.symm.trans hw'
          exact Option.some.inj (hx.symm.trans hy)
      | unlisted hy => cases hx.symm.trans (hy _ _ hlex hw)
  | unlisted hx =>
      cases hy with
      | listed hlex hw hy => cases hy.symm.trans (hx _ _ hlex hw)
      | unlisted _ => rfl

/-- The cost at which a parser seeds a token is its lexical cost. -/
theorem lexicalCost_iff {ctx : Context α} {t : Token} {x : α} :
    LexicalCost ctx.lexicon t x ↔ Parser.tokenCost ctx t = x := by
  constructor
  · exact (LexicalCost.tokenCost ctx t).unique
  · rintro rfl
    exact .tokenCost ctx t

namespace Derivation

variable {ctx : Context α} {sentence : List Token} {d : Derivation α}

/-- Leaves are tokens at their lexical costs, and inner nodes are instances of clauses. -/
inductive Proper (ctx : Context α) (sentence : List Token) : Derivation α → Prop where
  | leaf {i : Nat} {t : Token} {x : α} : sentence[i]? = some t → LexicalCost ctx.lexicon t x →
      Proper ctx sentence
        (node t.tag (ctx.grammar.dict.name t.tag) (.one i (i + 1)) x [])
  | unary {c : Clause α} {d : Derivation α} {s : Span} : c ∈ ctx.grammar.clauses →
      c.right = none → Proper ctx sentence d → d.label = c.left →
      c.join.join d.span ⟨0, 0, 0, 0⟩ = some s →
      Proper ctx sentence (node c.lhs (ctx.grammar.dict.name c.lhs) s (Cost.add d.cost c.cost) [d])
  | binary {c : Clause α} {r : Label} {d d' : Derivation α} {s : Span} :
      c ∈ ctx.grammar.clauses → c.right = some r → Proper ctx sentence d → d.label = c.left →
      Proper ctx sentence d' → d'.label = r → c.join.join d.span d'.span = some s →
      Proper ctx sentence (node c.lhs (ctx.grammar.dict.name c.lhs) s
        (Cost.add (Cost.add d.cost d'.cost) c.cost) [d, d'])

theorem Proper.derivable (h : Proper ctx sentence d) :
    Derivable ctx.grammar sentence d.label d.span := by
  induction h with
  | leaf ht _ => exact .tag ht
  | unary hc hr _ hl hj ih => exact .unary hc hr (hl ▸ ih) hj
  | binary hc hr _ hl _ hl' hj ih ih' => exact .binary hc hr (hl ▸ ih) (hl' ▸ ih') hj

theorem Proper.withHeuristic (h : Proper ctx sentence d) (heuristic : Heuristic α) :
    Proper { ctx with heuristic } sentence d := by
  induction h with
  | leaf ht hx => exact .leaf ht hx
  | unary hc hr _ hl hj ih => exact .unary hc hr ih hl hj
  | binary hc hr _ hl _ hl' hj ih ih' => exact .binary hc hr ih hl ih' hl' hj

theorem Proper.of_mem_children (h : Proper ctx sentence d) {child : Derivation α}
    (hmem : child ∈ d.children) : Proper ctx sentence child := by
  cases h with
  | leaf _ _ => cases hmem
  | unary _ _ hd _ _ =>
      cases List.mem_singleton.mp hmem
      exact hd
  | binary _ _ hd _ hd' _ _ =>
      rcases List.mem_cons.mp hmem with rfl | hmem
      · exact hd
      · cases List.mem_singleton.mp hmem
        exact hd'

/-- An instance of the clause, seen from one of its children. What the other child costs is the
last argument, and nothing for an only child. -/
inductive MadeBy (g : Grammar α) (c : Clause α) : Derivation α → Derivation α → α → Prop where
  | only {child : Derivation α} {s : Span} {name : String} {cost : α} : c ∈ g.clauses →
      c.right = none → child.label = c.left → c.join.join child.span ⟨0, 0, 0, 0⟩ = some s →
      MadeBy g c (node c.lhs name s cost [child]) child Cost.zero
  | left {child sibling : Derivation α} {r : Label} {s : Span} {name : String} {cost : α} :
      c ∈ g.clauses → c.right = some r → child.label = c.left → sibling.label = r →
      c.join.join child.span sibling.span = some s →
      MadeBy g c (node c.lhs name s cost [child, sibling]) child sibling.cost
  | right {child sibling : Derivation α} {r : Label} {s : Span} {name : String} {cost : α} :
      c ∈ g.clauses → c.right = some r → sibling.label = c.left → child.label = r →
      c.join.join sibling.span child.span = some s →
      MadeBy g c (node c.lhs name s cost [sibling, child]) child sibling.cost

theorem MadeBy.mem_children {g : Grammar α} {c : Clause α} {child : Derivation α} {x : α}
    (h : d.MadeBy g c child x) : child ∈ d.children := by
  cases h with
  | only => exact List.mem_cons_self
  | left => exact List.mem_cons_self
  | right => exact List.mem_cons_of_mem _ List.mem_cons_self

/-- Every child of a derivation is there by a clause. -/
theorem Proper.exists_madeBy [ExactCost α] (h : Proper ctx sentence d) {child : Derivation α}
    (hmem : child ∈ d.children) : ∃ c x, d.MadeBy ctx.grammar c child x ∧
      d.cost = Cost.add (Cost.add child.cost x) c.cost := by
  cases h with
  | leaf _ _ => cases hmem
  | @unary c d s hc hr hd hl hj =>
      cases List.mem_singleton.mp hmem
      refine ⟨c, _, .only hc hr hl hj, ?_⟩
      rw [Cost.add_zero]
      rfl
  | @binary c r d d' s hc hr hd hl hd' hl' hj =>
      rcases List.mem_cons.mp hmem with rfl | hmem
      · exact ⟨c, _, .left hc hr hl hl' hj, rfl⟩
      · cases List.mem_singleton.mp hmem
        refine ⟨c, _, .right hc hr hl hl' hj, ?_⟩
        rw [ExactCost.add_comm child.cost]
        rfl

theorem derivable_iff_exists_proper (ctx : Context α) (sentence : List Token) (l : Label)
    (s : Span) : Derivable ctx.grammar sentence l s ↔
      ∃ d, Proper ctx sentence d ∧ d.label = l ∧ d.span = s := by
  constructor
  · intro h
    induction h with
    | tag ht => exact ⟨_, .leaf ht (.tokenCost ctx _), rfl, rfl⟩
    | unary hc hr _ hj ih =>
        obtain ⟨d, hd, hl, rfl⟩ := ih
        exact ⟨_, .unary hc hr hd hl hj, rfl, rfl⟩
    | binary hc hr _ _ hj ih ih' =>
        obtain ⟨d, hd, hl, rfl⟩ := ih
        obtain ⟨d', hd', hl', rfl⟩ := ih'
        exact ⟨_, .binary hc hr hd hl hd' hl' hj, rfl, rfl⟩
  · rintro ⟨d, hd, rfl, rfl⟩
    exact hd.derivable

end Derivation

theorem within_of_token {sentence : List Token} {i : Nat} {t : Token} (ht : sentence[i]? = some t) :
    (Span.one i (i + 1)).Within sentence.length := by
  obtain ⟨hi, -⟩ := List.getElem?_eq_some_iff.mp ht
  simp only [Span.Within, Span.Valid, Span.one, Span.unset]
  simp
  omega

theorem Derivable.within {g : Grammar α} {sentence : List Token} (hg : g.WellFormed) {l : Label}
    {s : Span} (h : Derivable g sentence l s) : s.Within sentence.length := by
  induction h with
  | tag ht => exact within_of_token ht
  | @unary c b s hc hr _ hj ih =>
      apply JoinType.join_within hj ih
      intro hne
      rw [hg.isUnary_eq_true hc hr] at hne
      cases hne
  | binary hc hr _ _ hj ih ih' => exact JoinType.join_within hj ih fun _ => ih'

namespace Derivation

variable {ctx : Context α} {sentence : List Token} {d : Derivation α}

/-- Every covered position is the position of one leaf. -/
theorem Proper.leaves (hg : ctx.grammar.WellFormed) (h : Proper ctx sentence d) :
    ∃ ps, d.leaves? = some ps ∧ ps.Perm d.span.positions := by
  induction h with
  | @leaf i t x ht _ =>
      have hlen : (Span.one i (i + 1)).len = 1 := by
        have hone : (i : Int) + 1 - i = 1 := by omega
        unfold Span.len Span.one
        rw [if_pos rfl, hone]
        rfl
      refine ⟨_, ?_, .refl _⟩
      simp only [leaves?, Span.positions?, Span.positionLimit]
      rw [hlen]
      rfl
  | @unary c d s hc hr hd hl hj ih =>
      obtain ⟨ps, hps, hperm⟩ := ih
      obtain rfl := JoinType.join_unary (hg.isUnary_eq_true hc hr) hj
      refine ⟨ps, ?_, hperm⟩
      simp only [leaves?, leavesOfAll?, leavesOfAll?]
      simp [hps]
  | @binary c r d d' s hc hr hd hl hd' hl' hj ih ih' =>
      obtain ⟨ps, hps, hperm⟩ := ih
      obtain ⟨ps', hps', hperm'⟩ := ih'
      have hvalid := (hd.derivable.within hg).1
      have hvalid' := (hd'.derivable.within hg).1
      have hjoined := JoinType.joined_of_join (hg.isUnary_eq_false hc hr) hj hvalid hvalid'
      refine ⟨ps ++ ps', ?_, ?_⟩
      · simp only [leaves?, leavesOfAll?, leavesOfAll?, leavesOfAll?]
        simp [hps, hps']
      · exact (hperm.append hperm').trans (hjoined.positions_perm hvalid hvalid').symm

/-- The tree below place `id` of the proven items, no deeper than the first argument. -/
inductive Traced (dict : Dictionary) (proves : Nat → Item α → Prop) :
    Nat → Nat → Derivation α → Prop where
  | leaf {depth id : Nat} {it : Item α} : proves id it → it.left = none → it.right = none →
      Traced dict proves (depth + 1) id
        (node it.label (dict.name it.label) it.span it.inside [])
  | unary {depth id n : Nat} {it : Item α} {d : Derivation α} : proves id it →
      it.left = some (n : Int) → it.right = none → Traced dict proves depth n d →
      Traced dict proves (depth + 1) id
        (node it.label (dict.name it.label) it.span it.inside [d])
  | binary {depth id n n' : Nat} {it : Item α} {d d' : Derivation α} : proves id it →
      it.left = some (n : Int) → it.right = some (n' : Int) → Traced dict proves depth n d →
      Traced dict proves depth n' d' → Traced dict proves (depth + 1) id
        (node it.label (dict.name it.label) it.span it.inside [d, d'])

variable {dict : Dictionary} {proves proves' : Nat → Item α → Prop} {depth id : Nat}

omit [Cost α] in
theorem Traced.mono (hle : ∀ id it, proves id it → proves' id it)
    (h : Traced dict proves depth id d) : Traced dict proves' depth id d := by
  induction h with
  | leaf hit hl hr => exact .leaf (hle _ _ hit) hl hr
  | unary hit hl hr _ ih => exact .unary (hle _ _ hit) hl hr ih
  | binary hit hl hr _ _ ih ih' => exact .binary (hle _ _ hit) hl hr ih ih'

omit [Cost α] in
theorem Traced.deeper (h : Traced dict proves depth id d) {depth' : Nat} (hle : depth ≤ depth') :
    Traced dict proves depth' id d := by
  induction h generalizing depth' with
  | leaf hit hl hr =>
      obtain ⟨k, rfl⟩ := Nat.exists_eq_add_of_le' (Nat.one_le_of_lt hle)
      exact .leaf hit hl hr
  | unary hit hl hr _ ih =>
      obtain ⟨k, rfl⟩ := Nat.exists_eq_add_of_le' (Nat.one_le_of_lt hle)
      exact .unary hit hl hr (ih (Nat.le_of_succ_le_succ hle))
  | binary hit hl hr _ _ ih ih' =>
      obtain ⟨k, rfl⟩ := Nat.exists_eq_add_of_le' (Nat.one_le_of_lt hle)
      exact .binary hit hl hr (ih (Nat.le_of_succ_le_succ hle)) (ih' (Nat.le_of_succ_le_succ hle))

omit [Cost α] in
/-- Following the back pointers finds the tree. -/
theorem Traced.ofItem? {arena : Arena α} (hplace : ∀ id it, proves id it → arena[id]? = some it)
    (h : Traced dict proves depth id d) : ofItem? dict arena depth id = some d := by
  induction h with
  | leaf hit hl hr =>
      simp only [Derivation.ofItem?, Arena.at?]
      simp [hplace _ _ hit, hl, hr, atPointer]
  | unary hit hl hr _ ih =>
      simp only [Derivation.ofItem?, Arena.at?]
      simp [hplace _ _ hit, hl, hr, atPointer, ih]
  | binary hit hl hr _ _ ih ih' =>
      simp only [Derivation.ofItem?, Arena.at?]
      simp [hplace _ _ hit, hl, hr, atPointer, ih, ih']

end Derivation

end Discontinuous
