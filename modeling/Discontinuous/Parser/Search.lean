import Discontinuous.Chart
import Discontinuous.Estimate.Outside
import Discontinuous.Trace

/-!
Best-first deduction. The cheapest queued item is proven, and proposals are made from it and the
items proven before. Proposals of one label and span share a place in the arena until they are
proven, and a cheaper one takes the place of a dearer one.
-/
namespace Discontinuous

/-- What a search is about and what guides it. None of it changes in the course of a search. -/
structure Problem (α : Type) where
  grammar : Grammar α
  heuristic : Heuristic α
  length : Int
  /-- The most pops, or no bound if this is not positive. -/
  maxPops : Int
  tracing : Bool

/-- What a clause says about proven items: they join to its left hand side. -/
structure Proposal (α : Type) where
  clause : Clause α
  span : Span
  left : Option Int
  right : Option Int
  inside : α

/-- An item that cannot be: its ranges are out of order, or it is proven already. -/
structure InvariantError (α : Type) where
  item : Item α
  clause : Option (Clause α)
  reason : String

def InvariantError.message {α : Type} [CostText α] (e : InvariantError α) : String :=
  let text := "internal invariant violated: " ++ e.reason ++ " for item " ++ e.item.render
  match e.clause with
  | none => text
  | some c => text ++ " from clause #" ++ toString c.id ++ " (" ++ c.join.name ++ ")"

/-- The items of a search, those that are queued, and what has been told. -/
structure Frontier (α : Type) where
  arena : Arena α
  agenda : Agenda Key α Nat
  log : Array (Event α)

namespace Frontier

variable {α : Type} [Cost α]

def empty : Frontier α := ⟨#[], .empty, #[]⟩

def reset (f : Frontier α) : Frontier α :=
  { f with arena := #[], agenda := f.agenda.reset, log := #[] }

def tell (f : Frontier α) (e : Event α) : Frontier α := { f with log := f.log.push e }

def tellIf (f : Frontier α) (tracing : Bool) (e : Event α) : Frontier α :=
  if tracing then f.tell e else f

/-- Queues an item, for which a place is made at the end of the arena. If its key is queued already,
the place is given back; an item that is cheaper replaces the queued one. -/
def enqueue (p : Problem α) (f : Frontier α) (it : Item α) : Frontier α :=
  let ⟨arena, agenda, log⟩ := f
  let (arena, id) := arena.add it
  let (agenda, outcome, stored) := agenda.push it.key it.total id
  let arena := match outcome with
    | .inserted => arena
    | .ignored => arena.release id
    | .improved => Arena.release (arena.setIfInBounds stored it) id
  tellIf ⟨arena, agenda, log⟩ p.tracing (.pushed outcome (p.grammar.dict.name it.label) it)

/-- Queues what is proposed, unless it is proven. -/
def propose (p : Problem α) (chart : Chart) (f : Frontier α) (x : Proposal α) :
    Frontier α × Option (InvariantError α) :=
  let it : Item α := ⟨x.clause.lhs, x.span, x.inside, Cost.zero, some x.clause, x.left, x.right⟩
  if ¬ x.span.Valid then
    (f.tell (.spanRefused x.span (p.grammar.named x.clause)),
      some ⟨it, some x.clause, "malformed span"⟩)
  else if chart.contains it.label it.span then (f, none)
  else
    let total := Cost.add x.inside (p.heuristic it.label it.span p.length)
    (f.enqueue p { it with total }, none)

end Frontier

namespace Proposal

variable {α : Type} [Cost α]

/-- By a clause with a single child. -/
def ofOnly (c : Clause α) (child : Nat × Item α) : Option (Proposal α) :=
  (c.join.join child.2.span ⟨0, 0, 0, 0⟩).map fun span =>
    ⟨c, span, some (child.1 : Int), none, Cost.add child.2.inside c.cost⟩

def ofPair (c : Clause α) (left right : Nat × Item α) : Option (Proposal α) :=
  (c.join.join left.2.span right.2.span).map fun span =>
    ⟨c, span, some (left.1 : Int), some (right.1 : Int),
      Cost.add (Cost.add left.2.inside right.2.inside) c.cost⟩

end Proposal

/-- The places of proven items that are asked for. Nothing may be asked. -/
def Chart.places (chart : Chart) (label : Label) : Option Query → List Nat
  | none => []
  | some q => chart.lookup label q

namespace Frontier

variable {α β : Type} [Cost α]

/-- Takes a step for each element of a list, up to the first step that cannot be taken. -/
def each (step : Frontier α → β → Frontier α × Option (InvariantError α)) (f : Frontier α) :
    List β → Frontier α × Option (InvariantError α)
  | [] => (f, none)
  | x :: rest =>
    match step f x with
    | (f, some e) => (f, some e)
    | (f, none) => each step f rest

def proposeIf (p : Problem α) (chart : Chart) (f : Frontier α) :
    Option (Proposal α) → Frontier α × Option (InvariantError α)
  | none => (f, none)
  | some x => f.propose p chart x

/-- Proposes what is made with a proven sibling, which is looked up in the arena as it is by now. -/
def proposeWith (p : Problem α) (chart : Chart) (make : Nat × Item α → Option (Proposal α))
    (f : Frontier α) (id : Nat) : Frontier α × Option (InvariantError α) :=
  f.proposeIf p chart (f.arena[id]?.bind fun sibling => make (id, sibling))

/-- Proposes by a clause whose left or only child is given. -/
def proposeLeft (p : Problem α) (chart : Chart) (child : Nat × Item α) (f : Frontier α)
    (c : Clause α) : Frontier α × Option (InvariantError α) :=
  match c.right with
  | none => f.proposeIf p chart (Proposal.ofOnly c child)
  | some right =>
    f.each (proposeWith p chart fun sibling => Proposal.ofPair c child sibling)
      (chart.places right (c.join.rightSibling child.2.span))

/-- Proposes by a clause whose right child is given. -/
def proposeRight (p : Problem α) (chart : Chart) (child : Nat × Item α) (f : Frontier α)
    (c : Clause α) : Frontier α × Option (InvariantError α) :=
  f.each (proposeWith p chart fun sibling => Proposal.ofPair c sibling child)
    (chart.places c.left (c.join.leftSibling child.2.span))

/-- Proposes what follows from an item and its proven siblings, by the clauses that have it for
their left child and then by those that have it for their right one. -/
def combine (p : Problem α) (chart : Chart) (child : Nat × Item α) (f : Frontier α) :
    Frontier α × Option (InvariantError α) :=
  match f.each (proposeLeft p chart child) (p.grammar.byLeft child.2.label) with
  | (f, some e) => (f, some e)
  | (f, none) => f.each (proposeRight p chart child) (p.grammar.byRight child.2.label)

end Frontier

structure Search (α : Type) where
  frontier : Frontier α
  chart : Chart
  pops : Nat

inductive Stop (α : Type) where
  | exhausted
  | found (goal : Nat) (cost : α)
  | popLimit
  | invariant (e : InvariantError α)
  /-- A queued place is outside the arena. -/
  | dangling (id : Nat)

namespace Search

variable {α : Type} [Cost α]

def empty : Search α := ⟨.empty, .empty, 0⟩

def reset (s : Search α) : Search α :=
  { s with frontier := s.frontier.reset, chart := s.chart.reset, pops := 0 }

def figures (s : Search α) : Figures := ⟨s.frontier.agenda.effort, s.chart.size, s.pops⟩

def combine (p : Problem α) (s : Search α) (id : Nat) (it : Item α) :
    Search α × Option (InvariantError α) :=
  let ⟨f, chart, pops⟩ := s
  let (f, e) := f.combine p chart (id, it)
  (⟨f, chart, pops⟩, e)

/-- Records an item that is not in the chart, and tells of it. -/
def prove (p : Problem α) (s : Search α) (id : Nat) (it : Item α) : Search α :=
  let event := .popped s.pops (p.grammar.dict.name it.label) it
  { s with
    chart := s.chart.record it.label it.span id
    frontier := s.frontier.tellIf p.tracing event }

def isGoal (p : Problem α) (it : Item α) : Bool :=
  it.label == p.grammar.start && it.span == .one 0 p.length

def advance (p : Problem α) (s : Search α) (id : Nat) (it : Item α) : Search α × Option (Stop α) :=
  if s.chart.contains it.label it.span then
    let s := { s with frontier := s.frontier.tell (.provenTwice it) }
    (s, some (.invariant ⟨it, it.clause, "item proven twice"⟩))
  else
    let s := s.prove p id it
    if isGoal p it then
      ({ s with frontier := s.frontier.tell (.found it.inside s.figures) },
        some (.found id it.inside))
    else
      let (s, e) := s.combine p id it
      (s, e.map .invariant)

/-- Pops the cheapest item, and proves it. The search goes on unless there is a reason to stop. -/
def step (p : Problem α) (s : Search α) : Search α × Option (Stop α) :=
  let ⟨⟨arena, agenda, log⟩, chart, pops⟩ := s
  match agenda.pop with
  | (none, agenda) =>
    let s : Search α := ⟨⟨arena, agenda, log⟩, chart, pops⟩
    ({ s with frontier := s.frontier.tell (.exhausted p.length s.figures) }, some .exhausted)
  | (some e, agenda) =>
    let s : Search α := ⟨⟨arena, agenda, log⟩, chart, pops + 1⟩
    if 0 < p.maxPops ∧ p.maxPops < (s.pops : Int) then (s, some .popLimit)
    else match s.frontier.arena[e.value]? with
    | none => (s, some (.dangling e.value))
    | some it => s.advance p e.value it

theorem room_advance_lt {p : Problem α} {s : Search α} {id : Nat} {it : Item α}
    (h : (s.advance p id it).2 = none) : (s.advance p id it).1.chart.room < s.chart.room := by
  unfold advance at h ⊢
  split at h
  · simp at h
  next hc =>
    rw [if_neg hc]
    dsimp only at h ⊢
    split at h
    · simp at h
    next hg =>
      rw [if_neg hg]
      exact Chart.room_record_lt id (by simpa using hc)

theorem room_step_lt {p : Problem α} {s : Search α} (h : (s.step p).2 = none) :
    (s.step p).1.chart.room < s.chart.room := by
  obtain ⟨⟨arena, agenda, log⟩, chart, pops⟩ := s
  unfold step at h ⊢
  dsimp only at h ⊢
  rcases hpop : agenda.pop with ⟨_ | e, rest⟩
  · simp [hpop] at h
  · simp only [hpop] at h ⊢
    split at h
    · simp at h
    next hlimit =>
      rw [if_neg hlimit]
      rcases hit : arena[e.value]? with _ | it
      · simp [hit] at h
      · simp only [hit] at h ⊢
        exact room_advance_lt h

/-- Goes on until there is a reason to stop. Every step that does not stop takes up room in the
chart. -/
def run (p : Problem α) (s : Search α) : Search α × Stop α :=
  match _h : s.step p with
  | (s, some stop) => (s, stop)
  | (s, none) => run p s
termination_by s.chart.room
decreasing_by
  have hlt := @room_step_lt _ _ p _ (congrArg Prod.snd _h)
  rwa [_h] at hlt

end Search

end Discontinuous
