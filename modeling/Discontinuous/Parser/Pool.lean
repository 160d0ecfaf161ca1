import Discontinuous.Parser.Derivation

/-!
Pools: parsers that are lent out and come back. A parser is always handed out initialized.
-/
namespace Discontinuous

inductive Lease where
  | lent
  | idle
  | dropped
deriving DecidableEq

structure Pool (α : Type) where
  options : Options
  parsers : Array (Parser α × Lease)
  /-- The idle parsers, the one that came back last in front. -/
  idle : List Nat
  isOpen : Bool

/-- Why a sentence is not parsed by a pool. -/
inductive PoolError (α : Type) where
  | closed
  | parse (e : ParseError α)
  | derivation (e : Parser.DerivationError)

def PoolError.message {α : Type} [CostText α] : PoolError α → String
  | closed => "cannot borrow parser: Pool not open"
  | parse e => e.message
  | derivation e => e.message

namespace Pool

variable {α : Type} [Cost α]

def new (options : Options) : Pool α := ⟨options, #[], [], true⟩

/-- The most parsers that are kept while nobody needs them. -/
def maxIdle : Nat := 8

def setLease (pool : Pool α) (i : Nat) (lease : Lease) : Pool α :=
  { pool with parsers := pool.parsers.modify i fun (p, _) => (p, lease) }

def lease? (pool : Pool α) (i : Nat) : Option Lease := pool.parsers[i]?.map (·.2)

/-- Lends out a parser, a new one if none is idle. -/
def borrow (pool : Pool α) : Option (Pool α × Nat) :=
  if pool.isOpen then
    match pool.idle with
    | i :: idle => some ({ pool with idle }.setLease i .lent, i)
    | [] =>
      let i := pool.parsers.size
      some ({ pool with parsers := pool.parsers.push (.new pool.options, .lent) }, i)
  else none

def giveBack (pool : Pool α) (i : Nat) : Pool α × List (Event α) :=
  let pool := { pool with parsers := pool.parsers.modify i fun (p, lease) => (p.reset, lease) }
  match pool.lease? i with
  | some .lent =>
    if pool.isOpen && pool.idle.length < maxIdle then
      ({ pool with idle := i :: pool.idle }.setLease i .idle, [])
    else (pool.setLease i .dropped, [])
  | some .idle =>
    (pool, [.notReturned "Object has already been returned to pool or is invalid"])
  | _ => (pool, [.notReturned "Returned object not currently part of pool"])

/-- Lets go of the idle parsers, and lends out no more. -/
def close (pool : Pool α) : Pool α :=
  { pool.idle.foldl (fun pool i => pool.setLease i .dropped) pool with idle := [], isOpen := false }

def update (pool : Pool α) (i : Nat) (p : Parser α) : Pool α :=
  { pool with parsers := pool.parsers.modify i fun (_, lease) => (p, lease) }

def parseWith (p : Parser α) (ctx : Context α) (tracing : Bool) (sentence : List Token) :
    Parser α × Except (PoolError α) (Option (Derivation α × α)) :=
  match p.parse ctx tracing sentence with
  | (p, .error e) => (p, .error (.parse e))
  | (p, .ok none) => (p, .ok none)
  | (p, .ok (some success)) =>
    match p.derivation ctx.grammar.dict with
    | .error e => (p, .error (.derivation e))
    | .ok d => (p, .ok (some (d, success.cost)))

/-- Borrows a parser, parses a sentence and takes the parser back. -/
def parse (pool : Pool α) (ctx : Context α) (tracing : Bool) (sentence : List Token) :
    Pool α × List (Event α) × Except (PoolError α) (Option (Derivation α × α)) :=
  match pool.borrow with
  | none => (pool, [], .error .closed)
  | some (pool, i) =>
    match pool.parsers[i]? with
    | none => (pool, [], .error .closed)
    | some (p, _) =>
      let (p, result) := parseWith p ctx tracing sentence
      let (p, before) := p.drain
      let (pool, after) := (pool.update i p).giveBack i
      (pool, before ++ after, result)

end Pool

end Discontinuous
