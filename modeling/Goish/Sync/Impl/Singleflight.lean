import Mathlib.Logic.Function.Basic

/-! `sync::singleflight`: a `Group` of calls, of which at most one per key is registered in the map. -/

open Function

namespace Sync

namespace Singleflight

structure Result (V : Type w) (E : Type z) where
  val : V
  err : E
  shared : Bool
  deriving DecidableEq, Repr

-- `doCall` is about to run the function, to store what it has returned, to lock the group, or to send.
inductive DoCall (V : Type w) (E : Type z) where
  | run
  | store (v : V) (e : E)
  | lock (v : V) (e : E)
  | send (v : V) (e : E) (shared : Bool) (chans : List Nat)
  | returned
  deriving DecidableEq, Repr

-- `key` is the key that `doCall` is given, `result` what the function has returned, `callers` who has got this call,
-- and `reported` what the caller that made it has returned as `shared`.
structure Call (G : Type u) (K : Type v) (V : Type w) (E : Type z) where
  wg : Nat
  out : Option (V × E)
  -- Every unit stands for a parked goroutine or for an element of `chans`, so that the `AtomicI64` does
  -- not wrap around.
  dups : Nat
  chans : List Nat
  key : K
  doing : DoCall V E
  result : Option (V × E)
  callers : List (G ⊕ Nat)
  reported : Option (G × Bool)

namespace Call

variable {G : Type u} {K : Type v} {V : Type w} {E : Type z}

def new (key : K) (chans : List Nat) (caller : G ⊕ Nat) : Call G K V E :=
  {
    wg := 1
    out := none
    dups := 0
    chans := chans
    key := key
    doing := .run
    result := none
    callers := [caller]
    reported := none
  }

def inFlight (c : Call G K V E) : Bool :=
  match c.doing with
  | .run => true
  | .store _ _ => true
  | .lock _ _ => true
  | .send _ _ _ _ => false
  | .returned => false

def join (c : Call G K V E) (caller : G ⊕ Nat) : Call G K V E :=
  { c with dups := c.dups + 1, callers := c.callers ++ [caller] }

end Call

structure Served (K : Type v) where
  key : K
  call : Nat
  inFlight : Bool
  deriving DecidableEq, Repr

structure Channel (K : Type v) (V : Type w) (E : Type z) where
  sent : List (Result V E)
  served : Served K

inductive Pc (K : Type v) (V : Type w) (E : Type z) where
  | idle
  | do (key : K)
  | leader (key : K) (c : Nat)
  | leaderOut (key : K) (c : Nat) (v : V) (e : E)
  | follower (key : K) (c : Nat)
  | followerOut (key : K) (c : Nat)
  | done (key : K) (v : V) (e : E) (shared : Bool)
  | doChan (key : K)
  | doneChan (key : K) (ch : Nat)
  | forgetUnshared (key : K)
  | forgot (ok : Bool)
  | fatal
  deriving DecidableEq, Repr

inductive Request (K : Type v) where
  | do (key : K)
  | doChan (key : K)
  | forgetUnshared (key : K)
  deriving DecidableEq, Repr

structure State (G : Type u) (K : Type v) (V : Type w) (E : Type z) where
  m : Option (K → Option Nat)
  calls : Nat → Option (Call G K V E)
  nextCall : Nat
  channels : Nat → Option (Channel K V E)
  nextChan : Nat
  pc : G → Pc K V E
  served : G → Option (Served K)

namespace State

variable {G : Type u} {K : Type v} {V : Type w} {E : Type z} [DecidableEq G] [DecidableEq K]

def new : State G K V E :=
  {
    m := none
    calls := fun _ => none
    nextCall := 0
    channels := fun _ => none
    nextChan := 0
    pc := fun _ => .idle
    served := fun _ => none
  }

def goto (s : State G K V E) (g : G) (pc : Pc K V E) : State G K V E :=
  { s with pc := update s.pc g pc }

def setCall (s : State G K V E) (c : Nat) (x : Call G K V E) : State G K V E :=
  { s with calls := update s.calls c (some x) }

def lookup (s : State G K V E) (key : K) : Option Nat :=
  s.m.bind fun m => m key

def initMap (s : State G K V E) : K → Option Nat :=
  s.m.getD fun _ => none

def doLocked (s : State G K V E) (g : G) (key : K) : Option (State G K V E) :=
  match s.initMap key with
  | some c =>
    match s.calls c with
    | none => none
    | some x =>
      some { (s.setCall c (x.join (.inl g))).goto g (.follower key c) with
        m := some s.initMap
        served := update s.served g (some { key := key, call := c, inFlight := x.inFlight }) }
  | none =>
    let c := s.nextCall
    some { (s.setCall c (.new key [] (.inl g))).goto g (.leader key c) with
      m := some (update s.initMap key (some c))
      nextCall := c + 1
      served := update s.served g (some { key := key, call := c, inFlight := true }) }

def doChanLocked (s : State G K V E) (g : G) (key : K) : Option (State G K V E) :=
  let ch := s.nextChan
  match s.initMap key with
  | some c =>
    match s.calls c with
    | none => none
    | some x =>
      let served := { key := key, call := c, inFlight := x.inFlight }
      some { (s.setCall c { x.join (.inr ch) with chans := x.chans ++ [ch] }).goto g (.doneChan key ch) with
        m := some s.initMap
        channels := update s.channels ch (some { sent := [], served := served })
        nextChan := ch + 1 }
  | none =>
    let c := s.nextCall
    let served := { key := key, call := c, inFlight := true }
    some { (s.setCall c (.new key [ch] (.inr ch))).goto g (.doneChan key ch) with
      m := some (update s.initMap key (some c))
      nextCall := c + 1
      channels := update s.channels ch (some { sent := [], served := served })
      nextChan := ch + 1 }

def forgetLocked (s : State G K V E) (g : G) (key : K) : Option (State G K V E) :=
  match s.m with
  | none => some (s.goto g (.forgot true))
  | some m =>
    match m key with
    | none => some (s.goto g (.forgot true))
    | some c =>
      match s.calls c with
      | none => none
      | some x =>
        if x.dups = 0 then
          some { s.goto g (.forgot true) with m := some (update m key none) }
        else
          some (s.goto g (.forgot false))

def step (s : State G K V E) (g : G) : Option (State G K V E) :=
  match s.pc g with
  | .idle => none
  | .do key => s.doLocked g key
  | .leader key c =>
    match s.calls c with
    | none => none
    | some x =>
      match x.doing with
      | .returned =>
        match x.out with
        | none => some (s.goto g .fatal)
        | some (v, e) => some (s.goto g (.leaderOut key c v e))
      | _ => none
  | .leaderOut key c v e =>
    match s.calls c with
    | none => none
    | some x =>
      let shared := decide (0 < x.dups)
      some ((s.setCall c { x with reported := some (g, shared) }).goto g (.done key v e shared))
  | .follower key c =>
    match s.calls c with
    | none => none
    | some x => if x.wg = 0 then some (s.goto g (.followerOut key c)) else none
  | .followerOut key c =>
    match s.calls c with
    | none => none
    | some x =>
      match x.out with
      | none => some (s.goto g .fatal)
      | some (v, e) => some (s.goto g (.done key v e true))
  | .done _ _ _ _ => none
  | .doChan key => s.doChanLocked g key
  | .doneChan _ _ => none
  | .forgetUnshared key => s.forgetLocked g key
  | .forgot _ => none
  | .fatal => none

def exec (s : State G K V E) (c : Nat) (r : V × E) : Option (State G K V E) :=
  match s.calls c with
  | none => none
  | some x =>
    match x.doing with
    | .run => some (s.setCall c { x with doing := .store r.1 r.2, result := some r })
    | .store v e => some (s.setCall c { x with doing := .lock v e, out := some (v, e) })
    | .lock v e =>
      some { s.setCall c { x with
          doing := .send v e (0 < x.dups) x.chans, wg := x.wg - 1, chans := [] } with
        m := s.m.map fun m => if m x.key = some c then update m x.key none else m }
    | .send v e shared (ch :: chans) =>
      match s.channels ch with
      | none => none
      | some y =>
        -- A channel has room for one result.
        if y.sent.length < 1 then
          let y := { y with sent := y.sent ++ [{ val := v, err := e, shared := shared }] }
          some { s.setCall c { x with doing := .send v e shared chans } with
            channels := update s.channels ch (some y) }
        else
          none
    | .send _ _ _ [] => some (s.setCall c { x with doing := .returned })
    | .returned => none

def call (s : State G K V E) (g : G) (r : Request K) : Option (State G K V E) :=
  match s.pc g with
  | .idle | .done _ _ _ _ | .doneChan _ _ | .forgot _ =>
    match r with
    | .do key => some (s.goto g (.do key))
    | .doChan key => some (s.goto g (.doChan key))
    | .forgetUnshared key => some (s.goto g (.forgetUnshared key))
  | _ => none

end State

end Singleflight

end Sync
