import Discontinuous.Parser.Pool
import Discontinuous.Proofs.Recognition

/-!
Parsers that are used more than once. Nothing of a sentence outlives a reset, so that a parser that
takes a sentence is as good as a new one; and a pool lends out nothing but such parsers, whichever
of those that have come back it chooses.
-/
namespace Discontinuous

variable {α : Type}

namespace Parser

/-- A parser as good as new. -/
structure Fresh (options : Options) (p : Parser α) : Prop where
  options : p.options = options
  state : p.state = .initialized
  search : p.search = .empty
  length : p.length = 0
  goal : p.goal = none

/-- What a user asks of a parser. -/
inductive Call (α : Type) where
  | parse (ctx : Context α) (tracing : Bool) (sentence : List Token)
  | reset
  | drain

/-- All that a user learns from parsing a sentence. -/
structure Report (α : Type) where
  result : Except (ParseError α) (Option (Success α))
  state : ParserState
  figures : Figures
  chart : Chart
  arena : Arena α
  goal : Option Nat
  derivation : Except DerivationError (Derivation α)
  events : List (Event α)

variable {options : Options} {p : Parser α} {ctx : Context α} {tracing : Bool}
  {sentence : List Token}

theorem fresh_new (options : Options) : (new options : Parser α).Fresh options :=
  ⟨rfl, rfl, rfl, rfl, rfl⟩

/-- A reset parser keeps nothing but its options, in whatever state it was. -/
theorem fresh_reset (p : Parser α) : p.reset.Fresh p.options :=
  ⟨rfl, rfl, rfl, rfl, rfl⟩

theorem Fresh.reset_eq (h : p.Fresh options) : p.reset = p := by
  obtain ⟨o, search, state, length, goal, traced⟩ := p
  obtain ⟨rfl, rfl, rfl, rfl, rfl⟩ := h
  rfl

variable [Cost α]

def answer (p : Parser α) : Call α → Parser α
  | .parse ctx tracing sentence => (p.parse ctx tracing sentence).1
  | .reset => p.reset
  | .drain => p.drain.1

def report (p : Parser α) (ctx : Context α) (tracing : Bool) (sentence : List Token) : Report α :=
  let (q, result) := p.parse ctx tracing sentence
  ⟨result, q.state, q.figures, q.search.chart, q.search.frontier.arena, q.goal,
    q.derivation ctx.grammar.dict, q.drain.2⟩

theorem parse_of_not_ready (h : p.state ≠ .initialized) :
    p.parse ctx tracing sentence = (p, .error (.notReady p.state)) := by
  simp only [parse]
  rw [if_pos h]

theorem parse_of_bad_length (h : p.state = .initialized)
    (hlen : sentence.length = 0 ∨ maxSentence < sentence.length) :
    p.parse ctx tracing sentence = (p, .error (.badLength sentence.length)) := by
  simp only [parse]
  rw [if_neg (not_not.mpr h), if_pos hlen]

/-- A fresh parser takes a sentence as a new one does. -/
theorem Fresh.parse_eq (h : p.Fresh options) (hpos : 1 ≤ sentence.length)
    (hlen : sentence.length ≤ maxSentence) :
    p.parse ctx tracing sentence = (new options).parse ctx tracing sentence := by
  rw [← h.reset_eq, ← (fresh_new options).reset_eq, Parser.parse_eq hpos hlen,
    Parser.parse_eq hpos hlen]
  simp only [posed, begun, ended]
  rw [h.options]
  rfl

/-- A fresh parser does not tell that it is not new. -/
theorem Fresh.report_eq (h : p.Fresh options) (ctx : Context α) (tracing : Bool)
    (sentence : List Token) :
    p.report ctx tracing sentence = (new options).report ctx tracing sentence := by
  by_cases hlen : sentence.length = 0 ∨ maxSentence < sentence.length
  · simp only [report]
    rw [parse_of_bad_length h.state hlen, parse_of_bad_length (fresh_new options).state hlen]
    obtain ⟨o, search, state, length, goal, traced⟩ := p
    obtain ⟨rfl, rfl, rfl, rfl, rfl⟩ := h
    rfl
  · simp only [report]
    rw [h.parse_eq (by omega) (by omega)]

/-- Parsing a sentence changes nothing, or it leaves the parser in a state in which it takes no
other. The options stay. -/
theorem parse_leaves (p : Parser α) (ctx : Context α) (tracing : Bool) (sentence : List Token) :
    (p.parse ctx tracing sentence).1.options = p.options ∧
      ((p.parse ctx tracing sentence).1 = p ∨
        (p.parse ctx tracing sentence).1.state ≠ .initialized) := by
  simp only [parse]
  split
  · exact ⟨rfl, .inl rfl⟩
  · split
    · exact ⟨rfl, .inl rfl⟩
    · split
      · exact ⟨rfl, .inr (by rintro ⟨⟩)⟩
      · exact ⟨rfl, .inr (by rintro ⟨⟩)⟩
      · exact ⟨rfl, .inr (by rintro ⟨⟩)⟩
      · exact ⟨rfl, .inr (by rintro ⟨⟩)⟩
      · exact ⟨rfl, .inr (by rintro ⟨⟩)⟩

theorem options_answer (p : Parser α) (call : Call α) : (p.answer call).options = p.options := by
  cases call with
  | parse ctx tracing sentence => exact (parse_leaves p ctx tracing sentence).1
  | reset => rfl
  | drain => rfl

/-- Whenever the parser can take a sentence, it is fresh. -/
structure Reusable (options : Options) (p : Parser α) : Prop where
  fresh : p.state = .initialized → p.Fresh options
  options : p.options = options

omit [Cost α] in
theorem Fresh.reusable (h : p.Fresh options) : p.Reusable options := ⟨fun _ => h, h.options⟩

theorem Reusable.answer (h : p.Reusable options) (call : Call α) :
    (p.answer call).Reusable options := by
  refine ⟨fun hinit => ?_, (options_answer p call).trans h.options⟩
  cases call with
  | parse ctx tracing sentence =>
      obtain ⟨-, hsame | hstate⟩ := parse_leaves p ctx tracing sentence
      · simp only [Parser.answer] at hinit ⊢
        rw [hsame] at hinit ⊢
        exact h.fresh hinit
      · exact absurd hinit hstate
  | reset => exact h.options ▸ fresh_reset p
  | drain =>
      obtain ⟨hoptions, hstate, hsearch, hlength, hgoal⟩ := h.fresh hinit
      refine ⟨hoptions, hstate, ?_, hlength, hgoal⟩
      simp only [Parser.answer, drain]
      rw [hsearch]
      rfl

/-- After any calls a new parser is fresh, or it takes no sentence. -/
theorem reusable_foldl (calls : List (Call α)) (h : p.Reusable options) :
    (calls.foldl Parser.answer p).Reusable options := by
  induction calls generalizing p with
  | nil => exact h
  | cons call calls ih => exact ih (h.answer call)

end Parser

namespace Pool

variable {options : Options} {pool pool' : Pool α} {i j : Nat} {p : Parser α}

/-- The parser at place `i` has come back, and is not lent. -/
def AtHome (pool : Pool α) (i : Nat) : Prop := ∃ x, pool.parsers[i]? = some x ∧ x.2 ≠ .lent

/-- An open pool that has no parser in stock twice, and none that is lent. -/
structure Stocked (options : Options) (pool : Pool α) : Prop where
  options : pool.options = options
  isOpen : pool.isOpen = true
  nodup : pool.idle.Nodup
  atHome : ∀ i ∈ pool.idle, pool.AtHome i

/-- A pool lends out the parser at place `i`: one that it makes, or any that is at home. -/
structure Lends (pool : Pool α) (i : Nat) (pool' : Pool α) : Prop where
  stocked : pool'.Stocked pool.options
  parsers : (i = pool.parsers.size ∧
      pool'.parsers = pool.parsers.push (.new pool.options, .lent)) ∨
    (pool.AtHome i ∧ pool'.parsers = pool.parsers.modify i fun x => (x.1, .lent))

/-- A pool resets the parser that is lent at place `i`, and has it back. -/
structure TakesBack (pool : Pool α) (i : Nat) (pool' : Pool α) : Prop where
  stocked : pool'.Stocked pool.options
  lent : pool.lease? i = some .lent
  parsers : ∃ lease, lease ≠ .lent ∧
    pool'.parsers = pool.parsers.modify i fun x => (x.1.reset, lease)

/-- What a pool vouches for: its options, and that parsers at home are fresh. -/
def Vouched (options : Options) (x : Parser α × Lease) : Prop :=
  x.1.options = options ∧ (x.2 ≠ .lent → x.1.Fresh options)

structure Proper (options : Options) (pool : Pool α) : Prop where
  stocked : pool.Stocked options
  vouched : ∀ (i : Nat) (x : Parser α × Lease), pool.parsers[i]? = some x → Vouched options x

theorem proper_new (options : Options) : (new options : Pool α).Proper options := by
  refine ⟨⟨rfl, rfl, .nil, nofun⟩, ?_⟩
  intro i x hx
  simp [new] at hx

theorem parsers_update (pool : Pool α) (i : Nat) (p : Parser α) :
    (pool.update i p).parsers = pool.parsers.modify i fun x => (p, x.2) := rfl

theorem parsers_setLease (pool : Pool α) (i : Nat) (lease : Lease) :
    (pool.setLease i lease).parsers = pool.parsers.modify i fun x => (x.1, lease) := rfl

/-- Nothing happens to a parser at home while another one is changed. -/
theorem AtHome.modify (h : pool.AtHome j) (hij : i ≠ j) {f : Parser α × Lease → Parser α × Lease}
    (hparsers : pool'.parsers = pool.parsers.modify i f) : pool'.AtHome j := by
  obtain ⟨x, hx, hlease⟩ := h
  refine ⟨x, ?_, hlease⟩
  rw [hparsers, Array.getElem?_modify, if_neg hij]
  exact hx

theorem AtHome.ne_of_lent (h : pool.AtHome j) (hlent : pool.lease? i = some .lent) : i ≠ j := by
  rintro rfl
  obtain ⟨x, hx, hlease⟩ := h
  simp only [lease?] at hlent
  rw [hx] at hlent
  exact hlease (Option.some.inj hlent)

theorem Proper.modify (h : pool.Proper options) (hstocked : pool'.Stocked options)
    {f : Parser α × Lease → Parser α × Lease} (hparsers : pool'.parsers = pool.parsers.modify i f)
    (hf : ∀ x, pool.parsers[i]? = some x → Vouched options (f x)) : pool'.Proper options := by
  refine ⟨hstocked, ?_⟩
  intro j y hy
  rw [hparsers, Array.getElem?_modify] at hy
  split at hy
  next hij =>
    subst hij
    obtain ⟨x, hx, rfl⟩ := Option.map_eq_some_iff.mp hy
    exact hf x hx
  next => exact h.vouched j y hy

/-- Whatever is lent is fresh. -/
theorem Proper.lends (h : pool.Proper options) (hlends : Lends pool i pool') :
    pool'.Proper options ∧ ∃ p, pool'.parsers[i]? = some (p, .lent) ∧ p.Fresh options := by
  obtain ⟨hstocked, ⟨rfl, hparsers⟩ | ⟨⟨x, hx, hlease⟩, hparsers⟩⟩ := hlends
  · rw [h.stocked.options] at hstocked hparsers
    refine ⟨⟨hstocked, ?_⟩, .new options, ?_, Parser.fresh_new options⟩
    · intro j y hy
      rw [hparsers, Array.getElem?_push] at hy
      split at hy
      · cases hy
        exact ⟨rfl, fun _ => Parser.fresh_new options⟩
      · exact h.vouched j y hy
    · rw [hparsers, Array.getElem?_push_size]
  · rw [h.stocked.options] at hstocked
    refine ⟨h.modify hstocked hparsers ?_, x.1, ?_, (h.vouched i x hx).2 hlease⟩
    · intro y hy
      exact ⟨(h.vouched i y hy).1, fun hne => absurd rfl hne⟩
    · rw [hparsers, Array.getElem?_modify, if_pos rfl, hx]
      rfl

theorem Proper.takesBack (h : pool.Proper options) (hback : TakesBack pool i pool') :
    pool'.Proper options := by
  obtain ⟨hstocked, -, lease, -, hparsers⟩ := hback
  rw [h.stocked.options] at hstocked
  refine h.modify hstocked hparsers ?_
  intro x hx
  have hoptions := (h.vouched i x hx).1
  exact ⟨hoptions, fun _ => hoptions ▸ Parser.fresh_reset x.1⟩

/-- A parser that is lent may come into any state. -/
theorem Proper.update (h : pool.Proper options) (hlent : pool.lease? i = some .lent)
    (hoptions : p.options = options) : (pool.update i p).Proper options := by
  have hstocked : (pool.update i p).Stocked options := by
    refine ⟨h.stocked.options, h.stocked.isOpen, h.stocked.nodup, ?_⟩
    intro j hj
    have hhome := h.stocked.atHome j hj
    exact hhome.modify (hhome.ne_of_lent hlent) (parsers_update pool i p)
  refine h.modify hstocked (parsers_update pool i p) ?_
  intro x hx
  simp only [lease?] at hlent
  rw [hx] at hlent
  exact ⟨hoptions, fun hne => absurd (Option.some.inj hlent) hne⟩

theorem lease?_update (pool : Pool α) (i : Nat) (p : Parser α) :
    (pool.update i p).lease? i = pool.lease? i := by
  simp only [lease?, update]
  rw [Array.getElem?_modify, if_pos rfl, Option.map_map]
  rfl

/-- The pool's own way to lend. -/
theorem Proper.borrow (h : pool.Proper options) :
    ∃ pool' i, pool.borrow = some (pool', i) ∧ Lends pool i pool' := by
  have hnodup := h.stocked.nodup
  have hhome := h.stocked.atHome
  simp only [Pool.borrow]
  rw [if_pos h.stocked.isOpen]
  cases hidle : pool.idle with
  | nil =>
      refine ⟨_, _, rfl, ⟨rfl, h.stocked.isOpen, ?_, ?_⟩, .inl ⟨rfl, rfl⟩⟩
      · exact hidle ▸ .nil
      · intro j hj
        simp at hj
  | cons i idle =>
      rw [hidle] at hnodup hhome
      refine ⟨_, _, rfl, ⟨rfl, h.stocked.isOpen, (List.nodup_cons.mp hnodup).2, ?_⟩,
        .inr ⟨hhome i List.mem_cons_self, rfl⟩⟩
      intro j hj
      have hne : i ≠ j := fun hij => (List.nodup_cons.mp hnodup).1 (hij ▸ hj)
      exact (hhome j (List.mem_cons_of_mem i hj)).modify hne (parsers_setLease _ i .lent)

theorem modify_modify {β : Type} (xs : Array β) (i : Nat) (f g : β → β) :
    (xs.modify i f).modify i g = xs.modify i (g ∘ f) := by
  refine Array.ext_getElem? fun j => ?_
  rw [Array.getElem?_modify, Array.getElem?_modify, Array.getElem?_modify]
  split
  · rw [Option.map_map]
  · rfl

/-- A parser that is given back is kept, or it is dropped. -/
theorem giveBack_of_lent (hlent : pool.lease? i = some .lent) :
    ∃ lease idle, lease ≠ .lent ∧ (idle = pool.idle ∨ idle = i :: pool.idle) ∧
      (pool.giveBack i).1 = { pool with
        parsers := pool.parsers.modify i fun x => (x.1.reset, lease), idle } := by
  have hlease : ({ pool with parsers := pool.parsers.modify i fun x => (x.1.reset, x.2) } :
      Pool α).lease? i = some .lent := by
    rw [← hlent]
    simp only [lease?]
    rw [Array.getElem?_modify, if_pos rfl, Option.map_map]
    rfl
  unfold giveBack
  dsimp only
  rw [hlease]
  dsimp only
  split
  · refine ⟨.idle, i :: pool.idle, nofun, .inr rfl, ?_⟩
    simp only [setLease]
    rw [modify_modify]
    rfl
  · refine ⟨.dropped, pool.idle, nofun, .inl rfl, ?_⟩
    simp only [setLease]
    rw [modify_modify]
    rfl

/-- The pool's own way to take back. -/
theorem Proper.giveBack (h : pool.Proper options) (hlent : pool.lease? i = some .lent) :
    TakesBack pool i (pool.giveBack i).1 := by
  obtain ⟨lease, idle, hlease, hidle, heq⟩ := giveBack_of_lent hlent
  have hout : i ∉ pool.idle := fun hi => (h.stocked.atHome i hi).ne_of_lent hlent rfl
  have hnodup : idle.Nodup := by
    rcases hidle with rfl | rfl
    · exact h.stocked.nodup
    · exact List.nodup_cons.mpr ⟨hout, h.stocked.nodup⟩
  have hmem : ∀ j ∈ idle, j = i ∨ j ∈ pool.idle := by
    rcases hidle with rfl | rfl
    · exact fun j hj => .inr hj
    · exact fun j hj => List.mem_cons.mp hj
  rw [heq]
  refine ⟨⟨rfl, h.stocked.isOpen, hnodup, ?_⟩, hlent, lease, hlease, rfl⟩
  intro j hj
  rcases hmem j hj with rfl | hj
  · obtain ⟨x, hx, -⟩ := Option.map_eq_some_iff.mp hlent
    refine ⟨(x.1.reset, lease), ?_, hlease⟩
    dsimp only
    rw [Array.getElem?_modify, if_pos rfl, hx]
    rfl
  · have hhome := h.stocked.atHome j hj
    exact hhome.modify (f := fun x => (x.1.reset, lease)) (hhome.ne_of_lent hlent) rfl

variable [Cost α] {ctx : Context α} {tracing : Bool} {sentence : List Token}
  {result : Except (PoolError α) (Option (Derivation α × α))}

/-- What a parser's own results come to for somebody who asks for a derivation: the first error, or
the derivation with its cost, or that there is none. -/
inductive Answers (p : Parser α) (ctx : Context α) (tracing : Bool) (sentence : List Token) :
    Except (PoolError α) (Option (Derivation α × α)) → Prop where
  | refused {e : ParseError α} : (p.parse ctx tracing sentence).2 = .error e →
      Answers p ctx tracing sentence (.error (.parse e))
  | nowhere : (p.parse ctx tracing sentence).2 = .ok none →
      Answers p ctx tracing sentence (.ok none)
  | broken {success : Success α} {e : Parser.DerivationError} :
      (p.parse ctx tracing sentence).2 = .ok (some success) →
      (p.parse ctx tracing sentence).1.derivation ctx.grammar.dict = .error e →
      Answers p ctx tracing sentence (.error (.derivation e))
  | found {success : Success α} {d : Derivation α} :
      (p.parse ctx tracing sentence).2 = .ok (some success) →
      (p.parse ctx tracing sentence).1.derivation ctx.grammar.dict = .ok d →
      Answers p ctx tracing sentence (.ok (some (d, success.cost)))

/-- A pool lends a parser to itself, parses a sentence with it and takes it back. -/
def Parses (pool : Pool α) (ctx : Context α) (tracing : Bool) (sentence : List Token)
    (result : Except (PoolError α) (Option (Derivation α × α))) (pool' : Pool α) : Prop :=
  ∃ i p mid, Lends pool i mid ∧ mid.parsers[i]? = some (p, .lent) ∧
    Answers p ctx tracing sentence result ∧
    TakesBack (mid.update i (p.parse ctx tracing sentence).1.drain.1) i pool'

/-- What becomes of a pool while parsers are lent, used and taken back. A parser is not used unless
it is lent. -/
inductive Reaches (options : Options) : Pool α → Prop where
  | new : Reaches options (.new options)
  | get {pool pool' : Pool α} {i : Nat} : Reaches options pool → Lends pool i pool' →
      Reaches options pool'
  | use {pool : Pool α} {i : Nat} {p : Parser α} (call : Parser.Call α) : Reaches options pool →
      pool.parsers[i]? = some (p, .lent) → Reaches options (pool.update i (p.answer call))
  | put {pool pool' : Pool α} {i : Nat} : Reaches options pool → TakesBack pool i pool' →
      Reaches options pool'
  | parse {pool pool' : Pool α} {ctx : Context α} {tracing : Bool} {sentence : List Token}
      {result : Except (PoolError α) (Option (Derivation α × α))} : Reaches options pool →
      Parses pool ctx tracing sentence result pool' → Reaches options pool'

theorem Answers.unique {result' : Except (PoolError α) (Option (Derivation α × α))}
    (h : Answers p ctx tracing sentence result) (h' : Answers p ctx tracing sentence result') :
    result = result' := by
  cases h <;> cases h' <;> simp_all

theorem answers_parseWith (p : Parser α) (ctx : Context α) (tracing : Bool)
    (sentence : List Token) :
    (parseWith p ctx tracing sentence).1 = (p.parse ctx tracing sentence).1 ∧
      Answers p ctx tracing sentence (parseWith p ctx tracing sentence).2 := by
  rcases hparse : p.parse ctx tracing sentence with ⟨q, e | _ | success⟩
  · simp only [parseWith, hparse]
    exact ⟨trivial, .refused (congrArg Prod.snd hparse)⟩
  · simp only [parseWith, hparse]
    exact ⟨trivial, .nowhere (congrArg Prod.snd hparse)⟩
  · have hresult := congrArg Prod.snd hparse
    cases hd : q.derivation ctx.grammar.dict with
    | error e =>
        simp only [parseWith, hparse, hd]
        exact ⟨trivial, .broken hresult (by rw [hparse, hd])⟩
    | ok d =>
        simp only [parseWith, hparse, hd]
        exact ⟨trivial, .found hresult (by rw [hparse, hd])⟩

/-- What is asked of a fresh parser could be asked of a new one. -/
theorem Answers.of_fresh (hp : p.Fresh options) (h : Answers p ctx tracing sentence result) :
    Answers (.new options) ctx tracing sentence result := by
  have hresult : (p.parse ctx tracing sentence).2 =
      ((Parser.new options).parse ctx tracing sentence).2 :=
    congrArg Parser.Report.result (hp.report_eq ctx tracing sentence)
  have hderivation : (p.parse ctx tracing sentence).1.derivation ctx.grammar.dict =
      ((Parser.new options).parse ctx tracing sentence).1.derivation ctx.grammar.dict :=
    congrArg Parser.Report.derivation (hp.report_eq ctx tracing sentence)
  cases h with
  | refused h => exact .refused (hresult ▸ h)
  | nowhere h => exact .nowhere (hresult ▸ h)
  | broken h hd => exact .broken (hresult ▸ h) (hderivation ▸ hd)
  | found h hd => exact .found (hresult ▸ h) (hderivation ▸ hd)

omit [Cost α] in
theorem lease?_of_lent (h : pool.parsers[i]? = some (p, .lent)) : pool.lease? i = some .lent := by
  simp only [lease?]
  rw [h]
  rfl

theorem Proper.parses (h : pool.Proper options)
    (hparses : Parses pool ctx tracing sentence result pool') :
    pool'.Proper options ∧ Answers (.new options) ctx tracing sentence result := by
  obtain ⟨i, p, mid, hlends, hp, hanswers, hback⟩ := hparses
  obtain ⟨hmid, q, hq, hfresh⟩ := h.lends hlends
  cases hp.symm.trans hq
  refine ⟨(hmid.update (lease?_of_lent hp) ?_).takesBack hback, hanswers.of_fresh hfresh⟩
  exact (Parser.parse_leaves p ctx tracing sentence).1.trans hfresh.options

theorem Reaches.proper (h : Reaches options pool) : pool.Proper options := by
  induction h with
  | new => exact proper_new options
  | get _ hlends ih => exact (ih.lends hlends).1
  | use call _ hp ih =>
      refine ih.update (lease?_of_lent hp) ?_
      exact (Parser.options_answer _ call).trans (ih.vouched _ _ hp).1
  | put _ hback ih => exact ih.takesBack hback
  | parse _ hparses ih => exact (ih.parses hparses).1

/-- The pool's own way to parse. -/
theorem Proper.parse (h : pool.Proper options) (ctx : Context α) (tracing : Bool)
    (sentence : List Token) : Parses pool ctx tracing sentence
      (pool.parse ctx tracing sentence).2.2 (pool.parse ctx tracing sentence).1 := by
  obtain ⟨mid, i, hborrow, hlends⟩ := h.borrow
  obtain ⟨hmid, p, hp, hfresh⟩ := h.lends hlends
  have hlent := lease?_of_lent hp
  obtain ⟨hparser, hanswers⟩ := answers_parseWith p ctx tracing sentence
  have hupdated : (mid.update i (p.parse ctx tracing sentence).1.drain.1).Proper options :=
    hmid.update hlent ((Parser.parse_leaves p ctx tracing sentence).1.trans hfresh.options)
  have heq : ((pool.parse ctx tracing sentence).1, (pool.parse ctx tracing sentence).2.2) =
      (((mid.update i (p.parse ctx tracing sentence).1.drain.1).giveBack i).1,
        (parseWith p ctx tracing sentence).2) := by
    simp only [Pool.parse, ← hparser]
    rw [hborrow]
    dsimp only
    rw [hp]
  obtain ⟨hpool, hresult⟩ := Prod.mk.inj heq
  rw [hpool, hresult]
  exact ⟨i, p, mid, hlends, hp, hanswers,
    hupdated.giveBack ((lease?_update mid i _).trans hlent)⟩

/-- A parser that takes a sentence reports what a new one does, whatever it was asked before, and a
sentence that it refuses changes nothing. A pool always has a parser to lend, lends out fresh ones
only, and answers what a new parser would; so does every pool with another choice of what to lend.
-/
theorem reuse_leaves_no_trace (options : Options) :
    (∀ (calls : List (Parser.Call α)) (ctx : Context α) (tracing : Bool) (sentence : List Token),
      ((calls.foldl Parser.answer (.new options)).state = .initialized →
        (calls.foldl Parser.answer (.new options)).report ctx tracing sentence =
          (Parser.new options).report ctx tracing sentence)) ∧
    (∀ (p : Parser α) (ctx : Context α) (tracing : Bool) (sentence : List Token),
      (p.state ≠ .initialized →
        p.parse ctx tracing sentence = (p, .error (.notReady p.state))) ∧
      (p.state = .initialized → sentence.length = 0 ∨ maxSentence < sentence.length →
        p.parse ctx tracing sentence = (p, .error (.badLength sentence.length)))) ∧
    ∀ pool : Pool α, Reaches options pool →
      (∀ i pool', Lends pool i pool' →
        ∃ p, pool'.parsers[i]? = some (p, .lent) ∧ p.Fresh options) ∧
      (∀ ctx tracing sentence result pool', Parses pool ctx tracing sentence result pool' →
        Answers (.new options) ctx tracing sentence result) ∧
      (∃ pool' i, pool.borrow = some (pool', i) ∧ Lends pool i pool') ∧
      (∀ i, pool.lease? i = some .lent → TakesBack pool i (pool.giveBack i).1) ∧
      ∀ ctx tracing sentence, Parses pool ctx tracing sentence
        (pool.parse ctx tracing sentence).2.2 (pool.parse ctx tracing sentence).1 := by
  refine ⟨?_, ?_, ?_⟩
  · intro calls ctx tracing sentence hstate
    have hreusable := Parser.reusable_foldl calls (Parser.fresh_new options).reusable
    exact (hreusable.fresh hstate).report_eq ctx tracing sentence
  · intro p ctx tracing sentence
    exact ⟨Parser.parse_of_not_ready, Parser.parse_of_bad_length⟩
  · intro pool hpool
    have hproper := hpool.proper
    refine ⟨?_, ?_, hproper.borrow, fun i => hproper.giveBack, hproper.parse⟩
    · intro i pool' hlends
      exact (hproper.lends hlends).2
    · intro ctx tracing sentence result pool' hparses
      exact (hproper.parses hparses).2

/-- With these options a parser fails for the sentence, as it takes more than two pops. -/
def limited : Options := ⟨2, false⟩

def limitedCalls : List (Parser.Call Price) :=
  [.parse Parser.gapped false Parser.gappedSentence, .parse Parser.gapped false [], .reset,
    .parse Parser.gapped true []]

/-- The sentence is parsed by a parser that has failed before, and by one that comes back to the
pool: both fail as a new parser does. Without a limit, the parser of the pool finds what a new
parser finds. -/
theorem reuse_leaves_no_trace_limited :
    ((Parser.new limited).parse Parser.gapped false Parser.gappedSentence).1.state = .failed ∧
      (limitedCalls.foldl Parser.answer (.new limited)).state = .initialized ∧
      (limitedCalls.foldl Parser.answer (.new limited)).report Parser.gapped false
          Parser.gappedSentence =
        (Parser.new limited).report Parser.gapped false Parser.gappedSentence ∧
      (∃ pool : Pool Price, Reaches limited pool ∧ pool.idle = [0] ∧
        Answers (.new limited) Parser.gapped false Parser.gappedSentence
          (pool.parse Parser.gapped false Parser.gappedSentence).2.2) ∧
      ∃ pool : Pool Price, Reaches Parser.unbounded.options pool ∧ pool.idle = [0] ∧
        ∃ success d,
          ((Parser.new Parser.unbounded.options).parse Parser.gapped false
            Parser.gappedSentence).2 = .ok (some success) ∧
          ((Parser.new Parser.unbounded.options).parse Parser.gapped false
            Parser.gappedSentence).1.derivation Parser.gapped.grammar.dict = .ok d ∧
          (pool.parse Parser.gapped false Parser.gappedSentence).2.2 =
            .ok (some (d, success.cost)) := by
  have hstate : (limitedCalls.foldl Parser.answer (.new limited)).state = .initialized := by
    decide +kernel
  obtain ⟨hreport, -, hpool⟩ := reuse_leaves_no_trace (α := Price) limited
  obtain ⟨-, -, -, -, hfirst⟩ := hpool (.new limited) .new
  have hreaches := Reaches.parse .new (hfirst Parser.gapped false Parser.gappedSentence)
  obtain ⟨-, hresult, -, -, hparses⟩ := hpool _ hreaches
  refine ⟨by decide +kernel, hstate, hreport limitedCalls _ _ _ hstate,
    ⟨_, hreaches, by decide +kernel,
      hresult _ _ _ _ _ (hparses Parser.gapped false Parser.gappedSentence)⟩, ?_⟩
  obtain ⟨-, -, hpool⟩ := reuse_leaves_no_trace (α := Price) Parser.unbounded.options
  obtain ⟨-, -, -, -, hfirst⟩ := hpool (.new Parser.unbounded.options) .new
  have hreaches := Reaches.parse .new (hfirst Parser.gapped false Parser.gappedSentence)
  obtain ⟨-, hresult, -, -, hparses⟩ := hpool _ hreaches
  have hanswers := hresult _ _ _ _ _ (hparses Parser.gapped false Parser.gappedSentence)
  have hfound : (((Parser.new Parser.unbounded.options).parse Parser.gapped false
      Parser.gappedSentence).2.toOption.bind id).isSome = true := by
    decide +kernel
  have hderived : (((Parser.new Parser.unbounded.options).parse Parser.gapped false
      Parser.gappedSentence).1.derivation Parser.gapped.grammar.dict).toOption.isSome = true := by
    decide +kernel
  refine ⟨_, hreaches, by decide +kernel, ?_⟩
  rcases hs : ((Parser.new Parser.unbounded.options).parse Parser.gapped false
    Parser.gappedSentence).2 with e | _ | success
  · rw [hs] at hfound
    cases hfound
  · rw [hs] at hfound
    cases hfound
  · rcases hd : ((Parser.new Parser.unbounded.options).parse Parser.gapped false
      Parser.gappedSentence).1.derivation Parser.gapped.grammar.dict with e | d
    · rw [hd] at hderived
      cases hderived
    · exact ⟨success, d, rfl, rfl, hanswers.unique (.found hs hd)⟩

end Pool

end Discontinuous
