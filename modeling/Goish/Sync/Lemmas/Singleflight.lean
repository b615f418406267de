import Mathlib.Data.List.Nodup
import Mathlib.Data.Option.Basic
import Mathlib.Data.Prod.Lex
import Goish.Sync.Impl.Singleflight

open List Function Option

namespace Sync

namespace Singleflight

open State

variable {G : Type u} {K : Type v} {V : Type w} {E : Type z}

def DoCall.rank : DoCall V E → Nat ×ₗ Nat
  | .run => toLex (3, 0)
  | .store _ _ => toLex (2, 0)
  | .lock _ _ => toLex (1, 0)
  | .send _ _ _ chans => toLex (0, chans.length + 1)
  | .returned => toLex (0, 0)

namespace Call

def pending (c : Call G K V E) : List Nat :=
  match c.doing with
  | .send _ _ _ chans => chans
  | .returned => []
  | _ => c.chans

def Stored (c : Call G K V E) : Prop :=
  match c.doing with
  | .run => c.result = none
  | .store v e => c.result = some (v, e)
  | .lock v e => c.result = some (v, e) ∧ c.out = some (v, e)
  | .send v e shared _ => c.result = some (v, e) ∧ c.out = some (v, e) ∧ shared = decide (0 < c.dups)
  | .returned => ∃ v e, c.result = some (v, e) ∧ c.out = some (v, e)

structure Ok (c : Call G K V E) : Prop where
  wg : c.wg = if c.inFlight then 1 else 0
  stored : c.Stored
  callers : c.callers.length = c.dups + 1
  nodup : c.pending.Nodup
  reported : ∀ g b, c.reported = some (g, b) →
    c.doing = .returned ∧ b = decide (0 < c.dups) ∧ .inl g ∈ c.callers

structure Grows (c d : Call G K V E) : Prop where
  key : d.key = c.key
  result : ∀ r, c.result = some r → d.result = some r
  callers : ∀ x ∈ c.callers, x ∈ d.callers
  landed : c.inFlight = false → d.inFlight = false ∧ d.dups = c.dups
  returned : c.doing = .returned → d.doing = .returned
  rank : d.doing.rank ≤ c.doing.rank

theorem Grows.refl (c : Call G K V E) : c.Grows c :=
  ⟨rfl, fun _ h => h, fun _ h => h, fun h => ⟨h, rfl⟩, fun h => h, Std.le_refl _⟩

theorem Grows.trans {a b c : Call G K V E} (h : a.Grows b) (h' : b.Grows c) : a.Grows c := by
  constructor
  case key => exact h'.key.trans h.key
  case result => exact fun r hr => h'.result r (h.result r hr)
  case callers => exact fun x hx => h'.callers x (h.callers x hx)
  case landed =>
    intro hland
    obtain ⟨hb, hdups⟩ := h.landed hland
    obtain ⟨hc, hdups'⟩ := h'.landed hb
    exact ⟨hc, hdups'.trans hdups⟩
  case returned => exact fun hret => h'.returned (h.returned hret)
  case rank => exact Std.le_trans h'.rank h.rank

theorem Ok.out_of_landed {c : Call G K V E} (h : c.Ok) (hland : c.inFlight = false)
    : ∃ v e, c.result = some (v, e) ∧ c.out = some (v, e) := by
  have hstored := h.stored
  unfold Stored at hstored
  unfold inFlight at hland
  cases hd : c.doing with
  | run | store | lock => simp [hd] at hland
  | send v e =>
    simp only [hd] at hstored
    exact ⟨v, e, hstored.1, hstored.2.1⟩
  | returned =>
    simp only [hd] at hstored
    exact hstored

theorem Ok.landed_iff {c : Call G K V E} (h : c.Ok) : c.wg = 0 ↔ c.inFlight = false := by
  rw [h.wg]
  cases c.inFlight <;> simp

theorem ok_new (key : K) (chans : List Nat) (hnodup : chans.Nodup) (x : G ⊕ Nat)
    : (Call.new key chans x : Call G K V E).Ok := by
  constructor <;> simp [Call.new, Stored, inFlight, pending, hnodup]

theorem Ok.join {c : Call G K V E} (h : c.Ok) (hfly : c.inFlight = true) (x : G ⊕ Nat) : (c.join x).Ok := by
  have hstored := h.stored
  constructor
  case wg => exact h.wg
  case stored =>
    unfold Stored Call.join at *
    unfold inFlight at hfly
    cases hd : c.doing <;> simp_all
  case callers => simp [Call.join, h.callers]
  case nodup => exact h.nodup
  case reported =>
    intro g b hrep
    have hdoing := (h.reported g b hrep).1
    simp [inFlight, hdoing] at hfly

theorem grows_join {c : Call G K V E} (hfly : c.inFlight = true) (x : G ⊕ Nat) : c.Grows (c.join x) := by
  constructor
  case key => rfl
  case result => exact fun _ h => h
  case callers => exact fun y hy => mem_append_left _ hy
  case landed =>
    intro hland
    rw [hfly] at hland
    cases hland
  case returned => exact fun h => h
  case rank => exact Std.le_refl _

end Call

theorem update_eq_some [DecidableEq α] {a x : α} (h : update f a (some b) x = some y)
    : x = a ∧ b = y ∨ x ≠ a ∧ f x = some y := by
  by_cases heq : x = a
  . rw [heq, update_self, some.injEq] at h
    exact .inl ⟨heq, h⟩
  . rw [update_of_ne heq] at h
    exact .inr ⟨heq, h⟩

namespace State

variable {s t : State G K V E}

def Gets (s : State G K V E) (q : Served K) (x : G ⊕ Nat) : Prop :=
  ∃ c, s.calls q.call = some c ∧ c.key = q.key ∧ q.inFlight = true ∧ x ∈ c.callers

def PcOk (s : State G K V E) (g : G) : Prop :=
  match s.pc g with
  | .leader key c => s.served g = some ⟨key, c, true⟩
  | .leaderOut key c v e =>
    s.served g = some ⟨key, c, true⟩ ∧
      ∃ x, s.calls c = some x ∧ x.doing = .returned ∧ x.result = some (v, e)
  | .follower key c => s.served g = some ⟨key, c, true⟩
  | .followerOut key c =>
    s.served g = some ⟨key, c, true⟩ ∧ ∃ x, s.calls c = some x ∧ x.inFlight = false
  | .done key v e shared =>
    ∃ c, s.served g = some ⟨key, c, true⟩ ∧ ∃ x, s.calls c = some x ∧ x.result = some (v, e) ∧
      (shared = false → x.inFlight = false ∧ x.dups = 0)
  | .doneChan key ch => ∃ y, s.channels ch = some y ∧ y.served.key = key
  | .fatal => False
  | _ => True

def Gotten (c : Call G K V E) (ch : Nat) (sent : List (Result V E)) : Prop :=
  ch ∈ c.pending ∧ sent = [] ∨
    c.inFlight = false ∧ ∃ v e, c.result = some (v, e) ∧ sent = [⟨v, e, decide (0 < c.dups)⟩]

structure Inv (s : State G K V E) : Prop where
  calls : ∀ c x, s.calls c = some x → x.Ok
  nextCall : ∀ c, s.nextCall ≤ c → s.calls c = none
  map : ∀ key c, s.lookup key = some c → ∃ x, s.calls c = some x ∧ x.key = key ∧ x.inFlight = true
  pending : ∀ c x, s.calls c = some x →
    ∀ ch ∈ x.pending, ∃ y, s.channels ch = some y ∧ y.served.call = c ∧ y.sent = []
  nextChan : ∀ ch, s.nextChan ≤ ch → s.channels ch = none
  channel : ∀ ch y, s.channels ch = some y →
    s.Gets y.served (.inr ch) ∧ ∀ c, s.calls y.served.call = some c → Gotten c ch y.sent
  served : ∀ g q, s.served g = some q → s.Gets q (.inl g)
  pcs : ∀ g, s.PcOk g

structure Later (s t : State G K V E) : Prop where
  calls : ∀ c x, s.calls c = some x → ∃ x', t.calls c = some x' ∧ x.Grows x'
  channels : ∀ ch y, s.channels ch = some y → ∃ y', t.channels ch = some y' ∧ y'.served = y.served

structure Advances (s t : State G K V E) : Prop where
  inv : t.Inv
  later : s.Later t

theorem Later.trans {u : State G K V E} (h : s.Later t) (h' : t.Later u) : s.Later u := by
  constructor
  case calls =>
    intro c x hx
    obtain ⟨y, hy, hxy⟩ := h.calls c x hx
    obtain ⟨z, hz, hyz⟩ := h'.calls c y hy
    exact ⟨z, hz, hxy.trans hyz⟩
  case channels =>
    intro ch x hx
    obtain ⟨y, hy, hxy⟩ := h.channels ch x hx
    obtain ⟨z, hz, hyz⟩ := h'.channels ch y hy
    exact ⟨z, hz, hyz.trans hxy⟩

theorem Advances.trans {u : State G K V E} (h : s.Advances t) (h' : t.Advances u) : s.Advances u :=
  ⟨h'.inv, h.later.trans h'.later⟩

theorem Gets.later (hlater : s.Later t) (h : s.Gets q x) : t.Gets q x := by
  obtain ⟨_, hc, hkey, hfly, hx⟩ := h
  obtain ⟨c', hc', hgrows⟩ := hlater.calls _ _ hc
  exact ⟨c', hc', hgrows.key.trans hkey, hfly, hgrows.callers x hx⟩

theorem PcOk.later (hlater : s.Later t) (hpc : t.pc g = s.pc g) (hserved : t.served g = s.served g)
    (h : s.PcOk g) : t.PcOk g := by
  unfold PcOk at *
  rw [hpc, hserved]
  cases hs : s.pc g
  any_goals simp only [hs] at h
  case leaderOut =>
    obtain ⟨hq, _, hx, hdoing, hresult⟩ := h
    obtain ⟨x', hx', hgrows⟩ := hlater.calls _ _ hx
    exact ⟨hq, x', hx', hgrows.returned hdoing, hgrows.result _ hresult⟩
  case followerOut =>
    obtain ⟨hq, _, hx, hland⟩ := h
    obtain ⟨x', hx', hgrows⟩ := hlater.calls _ _ hx
    exact ⟨hq, x', hx', (hgrows.landed hland).1⟩
  case done =>
    obtain ⟨c, hq, _, hx, hresult, halone⟩ := h
    obtain ⟨x', hx', hgrows⟩ := hlater.calls _ _ hx
    refine ⟨c, hq, x', hx', hgrows.result _ hresult, ?_⟩
    intro hshared
    obtain ⟨hland, hdups⟩ := hgrows.landed (halone hshared).1
    exact ⟨hland, hdups.trans (halone hshared).2⟩
  case doneChan =>
    obtain ⟨_, hy, hkey⟩ := h
    obtain ⟨y', hy', hserved⟩ := hlater.channels _ _ hy
    exact ⟨y', hy', hserved ▸ hkey⟩
  case leader | follower => exact h
  all_goals trivial

theorem Gotten.grows (hgrows : Call.Grows c d) (hpending : ch ∈ c.pending → ch ∈ d.pending)
    (h : Gotten c ch sent) : Gotten d ch sent := by
  rcases h with hwait | hgot
  . exact .inl ⟨hpending hwait.1, hwait.2⟩
  obtain ⟨hland, v, e, hresult, hsent⟩ := hgot
  obtain ⟨hland', hdups⟩ := hgrows.landed hland
  refine .inr ⟨hland', v, e, hgrows.result _ hresult, ?_⟩
  rwa [hdups]

def Kept (x x' : Call G K V E) : Prop :=
  x.Grows x' ∧ x'.Ok ∧ x'.pending = x.pending

theorem Kept.refl {x : Call G K V E} (h : x.Ok) : Kept x x :=
  ⟨.refl x, h, rfl⟩

theorem Inv.lt_nextCall (h : s.Inv) (hx : s.calls c = some x) : c < s.nextCall := by
  apply lt_of_not_ge
  intro hle
  rw [h.nextCall c hle] at hx
  cases hx

theorem later_setCall (hx : s.calls c = some x) (hgrows : x.Grows x') (hz : s.calls d = some z)
    : ∃ z', update s.calls c (some x') d = some z' ∧ z.Grows z' := by
  by_cases heq : d = c
  . rw [heq, hx, some.injEq] at hz
    rw [heq, update_self, ← hz]
    exact ⟨x', rfl, hgrows⟩
  . rw [update_of_ne heq]
    exact ⟨z, hz, .refl z⟩

theorem Inv.evolve (h : s.Inv) (hx : s.calls c = some x) (hkept : Kept x x') (m : Option (K → Option Nat))
    (hmap : ∀ key d, m.bind (· key) = some d →
      s.lookup key = some d ∧ (d = c → x.inFlight = true → x'.inFlight = true))
    : s.Advances { s.setCall c x' with m := m } := by
  obtain ⟨hgrows, hok, hpending⟩ := hkept
  have hlater : s.Later { s.setCall c x' with m := m } :=
    ⟨fun _ _ => later_setCall hx hgrows, fun _ y hy => ⟨y, hy, rfl⟩⟩
  refine ⟨?_, hlater⟩
  constructor
  case calls =>
    intro d z hz
    rcases update_eq_some hz with ⟨-, rfl⟩ | hold
    . exact hok
    . exact h.calls d z hold.2
  case nextCall =>
    intro d hd
    have hlt := h.lt_nextCall hx
    exact (update_of_ne (Nat.ne_of_gt (Nat.lt_of_lt_of_le hlt hd)) _ _).trans (h.nextCall d hd)
  case map =>
    intro key d hd
    obtain ⟨hs, hfly⟩ := hmap key d hd
    obtain ⟨z, hz, hkey, hzfly⟩ := h.map key d hs
    obtain ⟨z', hz', hgrows'⟩ := hlater.calls d z hz
    refine ⟨z', hz', hgrows'.key.trans hkey, ?_⟩
    rcases update_eq_some hz' with ⟨heq, rfl⟩ | hold
    . rw [heq, hx, some.injEq] at hz
      exact hfly heq (hz ▸ hzfly)
    . rw [hz, some.injEq] at hold
      exact hold.2 ▸ hzfly
  case pending =>
    intro d z hz ch hch
    rcases update_eq_some hz with ⟨heq, rfl⟩ | hold
    . rw [heq]
      exact h.pending c x hx ch (hpending ▸ hch)
    . exact h.pending d z hold.2 ch hch
  case nextChan => exact h.nextChan
  case channel =>
    intro ch y hy
    obtain ⟨hgets, hgotten⟩ := h.channel ch y hy
    refine ⟨hgets.later hlater, ?_⟩
    intro z hz
    rcases update_eq_some hz with ⟨heq, rfl⟩ | hold
    . rw [heq] at hgotten
      exact (hgotten x hx).grows hgrows fun hch => hpending ▸ hch
    . exact hgotten z hold.2
  case served => exact fun g q hq => (h.served g q hq).later hlater
  case pcs => exact fun g => (h.pcs g).later hlater rfl rfl

variable [DecidableEq G]

theorem Inv.move {f : G → Option (Served K)} (h : s.Inv)
    (hserved : f = s.served ∨ ∃ q, f = update s.served g (some q) ∧ s.Gets q (.inl g))
    (hpc : PcOk { s.goto g p with served := f } g) : s.Advances { s.goto g p with served := f } := by
  have hlater : s.Later { s.goto g p with served := f } :=
    ⟨fun _ x hx => ⟨x, hx, .refl x⟩, fun _ y hy => ⟨y, hy, rfl⟩⟩
  refine ⟨{ h with served := ?_, pcs := ?_ }, hlater⟩
  . intro x q hq
    rcases hserved with rfl | ⟨q', rfl, hgets⟩
    . exact h.served x q hq
    rcases update_eq_some hq with ⟨rfl, rfl⟩ | hold
    . exact hgets
    . exact h.served x q hold.2
  intro x
  by_cases heq : x = g
  . rwa [heq]
  refine (h.pcs x).later hlater (update_of_ne heq _ _) ?_
  rcases hserved with rfl | ⟨q, rfl, _⟩
  . rfl
  . exact update_of_ne heq _ _

theorem Inv.goto (h : s.Inv) (g : G) (p : Pc K V E) (hpc : (s.goto g p).PcOk g) : s.Advances (s.goto g p) :=
  h.move (.inl rfl) hpc

attribute [local simp] PcOk

omit [DecidableEq G] in
theorem new_inv : Inv (new : State G K V E) := by
  constructor <;> simp [new, lookup]

attribute [local simp] State.goto

theorem Inv.call (h : s.Inv) (hcall : s.call g r = some t) : s.Advances t := by
  unfold State.call at hcall
  split at hcall
  all_goals try contradiction
  all_goals
    cases r with
    | «do» key | doChan key | forgetUnshared key =>
      cases hcall
      exact h.goto g _ (by simp)

omit [DecidableEq G] in
theorem initMap_eq (s : State G K V E) (key : K) : s.initMap key = s.lookup key := by
  unfold initMap lookup
  cases s.m <;> rfl

omit [DecidableEq G] in
theorem Inv.enroll [DecidableEq K] (h : s.Inv) (key : K) (x : G ⊕ Nat)
    : s.Advances { s.setCall s.nextCall (.new key [] x) with
        m := some (update s.initMap key (some s.nextCall)), nextCall := s.nextCall + 1 } := by
  have hold : ∀ c y, s.calls c = some y → update s.calls s.nextCall (some (.new key [] x)) c = some y :=
    fun c y hy => (update_of_ne (Nat.ne_of_lt (h.lt_nextCall hy)) _ _).trans hy
  have hlater : s.Later { s.setCall s.nextCall (.new key [] x) with
      m := some (update s.initMap key (some s.nextCall)), nextCall := s.nextCall + 1 } :=
    ⟨fun c y hy => ⟨y, hold c y hy, .refl y⟩, fun _ y hy => ⟨y, hy, rfl⟩⟩
  refine ⟨?_, hlater⟩
  constructor
  case calls =>
    intro c y hy
    rcases update_eq_some hy with ⟨-, rfl⟩ | hold
    . exact Call.ok_new key [] nodup_nil x
    . exact h.calls c y hold.2
  case nextCall =>
    intro c hc
    exact (update_of_ne (Nat.ne_of_gt hc) _ _).trans (h.nextCall c (Nat.le_of_succ_le hc))
  case map =>
    intro k c hk
    rcases update_eq_some hk with ⟨rfl, rfl⟩ | hk
    . exact ⟨_, update_self _ _ _, rfl, rfl⟩
    rw [initMap_eq] at hk
    obtain ⟨y, hy, hkey, hfly⟩ := h.map k c hk.2
    exact ⟨y, hold c y hy, hkey, hfly⟩
  case pending =>
    intro c y hy ch hch
    rcases update_eq_some hy with ⟨-, rfl⟩ | hold
    . cases hch
    . exact h.pending c y hold.2 ch hch
  case nextChan => exact h.nextChan
  case channel =>
    intro ch y hy
    obtain ⟨hgets, hgotten⟩ := h.channel ch y hy
    refine ⟨hgets.later hlater, ?_⟩
    intro c hc
    obtain ⟨c', hc', _⟩ := hgets
    cases (hold _ c' hc').symm.trans hc
    exact hgotten c hc'
  case served => exact fun g q hq => (h.served g q hq).later hlater
  case pcs => exact fun g => (h.pcs g).later hlater rfl rfl

structure Touches (s t : State G K V E) (c : Nat) (x x' : Call G K V E) (ch : Nat) (y : Channel K V E)
    : Prop where
  old : s.calls c = some x
  calls : t.calls = update s.calls c (some x')
  channels : t.channels = update s.channels ch (some y)
  grows : x.Grows x'
  ok : x'.Ok
  fly : x'.inFlight = x.inFlight
  served : y.served = ⟨x'.key, c, true⟩ ∧ .inr ch ∈ x'.callers
  same : ∀ z, s.channels ch = some z → z.served = y.served
  pending : ∀ a, a ∈ x'.pending ↔ if a = ch then y.sent = [] else a ∈ x.pending
  gotten : Gotten x' ch y.sent
  next : t.nextCall = s.nextCall ∧ s.nextChan ≤ t.nextChan ∧ ch < t.nextChan
  map : t.lookup = s.lookup

section Touches

omit [DecidableEq G]

variable {x x' : Call G K V E} {y : Channel K V E} (ht : Touches s t c x x' ch y)
include ht

theorem Touches.call_cases (hz : t.calls d = some z) : d = c ∧ x' = z ∨ d ≠ c ∧ s.calls d = some z := by
  rw [ht.calls] at hz
  exact update_eq_some hz

theorem Touches.channel_cases (hz : t.channels a = some z) : a = ch ∧ y = z ∨ a ≠ ch ∧ s.channels a = some z := by
  rw [ht.channels] at hz
  exact update_eq_some hz

theorem Touches.calls_self : t.calls c = some x' := by
  rw [ht.calls, update_self]

theorem Touches.later : s.Later t := by
  constructor
  case calls =>
    rw [ht.calls]
    exact fun _ _ => later_setCall ht.old ht.grows
  case channels =>
    intro a z hz
    rw [ht.channels]
    by_cases heq : a = ch
    . rw [heq] at hz
      rw [heq, update_self]
      exact ⟨y, rfl, (ht.same z hz).symm⟩
    . rw [update_of_ne heq]
      exact ⟨z, hz, rfl⟩

theorem Inv.touch (h : s.Inv) (hserved : t.served = s.served) (hpc : t.pc = s.pc) : s.Advances t := by
  have hother : ∀ d z a, d ≠ c → s.calls d = some z → a ∈ z.pending → a ≠ ch := by
    intro d z a hne hz ha heq
    obtain ⟨w, hw, hcall, _⟩ := h.pending d z hz a ha
    rw [heq] at hw
    rw [ht.same w hw, ht.served.1] at hcall
    exact hne hcall.symm
  refine ⟨?_, ht.later⟩
  constructor
  case calls =>
    intro d z hz
    rcases ht.call_cases hz with hnew | hold
    . rw [← hnew.2]
      exact ht.ok
    . exact h.calls d z hold.2
  case nextCall =>
    intro d hd
    rw [ht.next.1] at hd
    have hlt := h.lt_nextCall ht.old
    rw [ht.calls, update_of_ne (by omega)]
    exact h.nextCall d hd
  case map =>
    intro k d hk
    rw [ht.map] at hk
    obtain ⟨z, hz, hkey, hfly⟩ := h.map k d hk
    by_cases heq : d = c
    . rw [heq, ht.old, some.injEq] at hz
      rw [heq]
      exact ⟨x', ht.calls_self, ht.grows.key.trans (hz ▸ hkey), ht.fly.trans (hz ▸ hfly)⟩
    . rw [ht.calls, update_of_ne heq]
      exact ⟨z, hz, hkey, hfly⟩
  case pending =>
    intro d z hz a ha
    rw [ht.channels]
    rcases ht.call_cases hz with hnew | hold
    . rw [← hnew.2, ht.pending] at ha
      split at ha
      . next heq =>
        rw [heq, update_self]
        refine ⟨y, rfl, ?_, ha⟩
        rw [ht.served.1]
        exact hnew.1.symm
      . next hne =>
        rw [update_of_ne hne, hnew.1]
        exact h.pending c x ht.old a ha
    . rw [update_of_ne (hother d z a hold.1 hold.2 ha)]
      exact h.pending d z hold.2 a ha
  case nextChan =>
    intro a _
    have hnext := ht.next
    have hne : a ≠ ch := by omega
    rw [ht.channels, update_of_ne hne]
    exact h.nextChan a (by omega)
  case channel =>
    intro a z hz
    rcases ht.channel_cases hz with hnew | hold
    . rw [hnew.1, ← hnew.2]
      have hcall : y.served.call = c := by rw [ht.served.1]
      constructor
      . refine ⟨x', ?_, ?_, ?_, ht.served.2⟩
        . rw [hcall]
          exact ht.calls_self
        . rw [ht.served.1]
        . rw [ht.served.1]
      . intro d hd
        rw [hcall, ht.calls_self, some.injEq] at hd
        rw [← hd]
        exact ht.gotten
    . obtain ⟨hgets, hgotten⟩ := h.channel a z hold.2
      refine ⟨hgets.later ht.later, ?_⟩
      intro d hd
      rcases ht.call_cases hd with hnew | hsame
      . rw [← hnew.2]
        rw [hnew.1] at hgotten
        refine (hgotten x ht.old).grows ht.grows ?_
        rw [ht.pending, if_neg hold.1]
        exact fun ha => ha
      . exact hgotten d hsame.2
  case served =>
    rw [hserved]
    exact fun g q hq => (h.served g q hq).later ht.later
  case pcs => exact fun g => (h.pcs g).later ht.later (congrFun hpc g) (congrFun hserved g)

end Touches

def addChannel (s : State G K V E) (c : Nat) (x : Call G K V E) (g : G) : State G K V E :=
  { (s.setCall c { x with chans := x.chans ++ [s.nextChan] }).goto g (.doneChan x.key s.nextChan) with
    channels := update s.channels s.nextChan (some { sent := [], served := ⟨x.key, c, true⟩ })
    nextChan := s.nextChan + 1 }

theorem Inv.addChannel (h : s.Inv) (hx : s.calls c = some x) (hfly : x.inFlight = true)
    (hmem : .inr s.nextChan ∈ x.callers) (g : G) : s.Advances (s.addChannel c x g) := by
  have hnone := h.nextChan s.nextChan le_rfl
  have hpending : Call.pending { x with chans := x.chans ++ [s.nextChan] } = x.pending ++ [s.nextChan] := by
    unfold Call.inFlight at hfly
    unfold Call.pending
    cases hd : x.doing <;> simp_all
  have hnot : s.nextChan ∉ x.pending := by
    intro hin
    obtain ⟨_, hy, _⟩ := h.pending c x hx _ hin
    rw [hnone] at hy
    cases hy
  have hok : Call.Ok { x with chans := x.chans ++ [s.nextChan] } := by
    have hxok := h.calls c x hx
    refine { hxok with nodup := ?_ }
    rw [hpending, nodup_append_comm, singleton_append, nodup_cons]
    exact ⟨hnot, hxok.nodup⟩
  have ht : Touches s
      { s.setCall c { x with chans := x.chans ++ [s.nextChan] } with
        channels := update s.channels s.nextChan (some { sent := [], served := ⟨x.key, c, true⟩ })
        nextChan := s.nextChan + 1 }
      c x { x with chans := x.chans ++ [s.nextChan] } s.nextChan { sent := [], served := ⟨x.key, c, true⟩ } := by
    constructor
    case old => exact hx
    case calls => rfl
    case channels => rfl
    case grows => exact ⟨rfl, fun _ h => h, fun _ h => h, fun h => ⟨h, rfl⟩, fun h => h, Std.le_refl _⟩
    case ok => exact hok
    case fly => rfl
    case served => exact ⟨rfl, hmem⟩
    case same =>
      intro z hz
      rw [hnone] at hz
      cases hz
    case pending =>
      intro a
      rw [hpending, mem_append, mem_singleton]
      split <;> simp_all
    case gotten =>
      rw [Gotten, hpending]
      exact .inl ⟨by simp, rfl⟩
    case next => exact ⟨rfl, Nat.le_succ _, Nat.lt_succ_self _⟩
    case map => rfl
  have hadd := Inv.touch ht h rfl rfl
  exact hadd.trans (hadd.inv.goto g (.doneChan x.key s.nextChan) (by simp))

variable [DecidableEq K]

omit [DecidableEq G] [DecidableEq K] in
theorem Inv.join (h : s.Inv) (hx : s.calls c = some x) (hfly : x.inFlight = true) (y : G ⊕ Nat)
    : s.Advances { s.setCall c (x.join y) with m := some s.initMap } :=
  h.evolve hx ⟨Call.grows_join hfly y, (h.calls c x hx).join hfly y, rfl⟩ _
    fun k _ hk => ⟨s.initMap_eq k ▸ hk, fun _ hfly => hfly⟩

theorem Inv.doLocked (h : s.Inv) (hstep : s.doLocked g key = some t) : s.Advances t := by
  unfold State.doLocked at hstep
  rw [initMap_eq] at hstep
  split at hstep
  . next c hc =>
    obtain ⟨x, hx, hkey, hfly⟩ := h.map key c hc
    simp only [hx, some.injEq] at hstep
    rw [hfly] at hstep
    subst hstep
    have hjoin := h.join hx hfly (.inl g)
    refine hjoin.trans (hjoin.inv.move
      (.inr ⟨⟨key, c, true⟩, rfl, x.join (.inl g), update_self _ _ _, hkey, rfl, ?_⟩) (by simp))
    simp [Call.join]
  . next hnone =>
    cases hstep
    have henroll := h.enroll key (.inl g)
    refine henroll.trans (henroll.inv.move (.inr ⟨⟨key, s.nextCall, true⟩, rfl, _, update_self _ _ _, rfl, rfl, ?_⟩) (by simp))
    simp [Call.new]

theorem Inv.doChanLocked (h : s.Inv) (hstep : s.doChanLocked g key = some t) : s.Advances t := by
  simp only [State.doChanLocked, initMap_eq] at hstep
  split at hstep
  . next c hc =>
    obtain ⟨x, hx, hkey, hfly⟩ := h.map key c hc
    simp only [hx, some.injEq] at hstep
    rw [hfly, ← hkey] at hstep
    have hjoin := h.join hx hfly (.inr s.nextChan)
    have hboth := hjoin.trans (hjoin.inv.addChannel (update_self _ _ _) hfly (by simp [Call.join, setCall]) g)
    simp only [State.addChannel, State.setCall, State.goto, update_idem] at hboth
    rwa [← hstep]
  . next hnone =>
    rw [some.injEq] at hstep
    have henroll := h.enroll key (.inr s.nextChan)
    have hboth := henroll.trans (henroll.inv.addChannel (update_self _ _ _) rfl (by simp [Call.new, setCall]) g)
    simp only [State.addChannel, State.setCall, State.goto, update_idem] at hboth
    rwa [← hstep]

theorem Inv.forgetLocked (h : s.Inv) (hstep : s.forgetLocked g key = some t) : s.Advances t := by
  have hforgot : ∀ ok, s.Advances (s.goto g (.forgot ok)) :=
    fun ok => h.goto g _ (by simp)
  unfold State.forgetLocked at hstep
  split at hstep
  . cases hstep
    exact hforgot true
  next m hm =>
  split at hstep
  . cases hstep
    exact hforgot true
  next c hc =>
  split at hstep
  . contradiction
  next x hx =>
  split at hstep
  . cases hstep
    have hdrop := h.evolve hx (.refl (h.calls c x hx)) (some (update m key none)) (by
      intro k d hk
      refine ⟨?_, fun _ hfly => hfly⟩
      unfold lookup
      rw [hm]
      by_cases heq : k = key
      . simp [heq] at hk
      . simpa [heq] using hk)
    rw [setCall, ← hx, update_eq_self] at hdrop
    exact hdrop.trans (hdrop.inv.goto g _ (by simp))
  . cases hstep
    exact hforgot false

omit [DecidableEq K]

omit [DecidableEq G] in
theorem Inv.served_call (h : s.Inv) (hq : s.served g = some ⟨key, c, true⟩)
    : ∃ x, s.calls c = some x ∧ x.key = key ∧ .inl g ∈ x.callers := by
  obtain ⟨x, hx, hkey, _, hmem⟩ := h.served g _ hq
  exact ⟨x, hx, hkey, hmem⟩

attribute [local simp] Call.inFlight

theorem Inv.leader_step [DecidableEq K] (h : s.Inv) (hg : s.pc g = .leader key c) (hstep : s.step g = some t)
    : s.Advances t := by
  have hq := h.pcs g
  unfold PcOk at hq
  simp only [hg] at hq
  obtain ⟨x, hx, _⟩ := h.served_call hq
  simp only [step, hg, hx] at hstep
  split at hstep
  . next hdoing =>
    have hland : x.inFlight = false := by simp [hdoing]
    obtain ⟨_, _, hresult, hout⟩ := (h.calls c x hx).out_of_landed hland
    simp only [hout] at hstep
    cases hstep
    apply h.goto
    simp only [PcOk, State.goto, update_self]
    exact ⟨hq, x, hx, hdoing, hresult⟩
  . contradiction

theorem Inv.leaderOut_step [DecidableEq K] (h : s.Inv) (hg : s.pc g = .leaderOut key c v e)
    (hstep : s.step g = some t) : s.Advances t := by
  have hq := h.pcs g
  unfold PcOk at hq
  simp only [hg] at hq
  obtain ⟨hq, x, hx, hdoing, hresult⟩ := hq
  obtain ⟨_, hy, _, hmem⟩ := h.served_call hq
  rw [hx, some.injEq] at hy
  rw [← hy] at hmem
  have hxok := h.calls c x hx
  have hkept : Kept x { x with reported := some (g, decide (0 < x.dups)) } := by
    refine ⟨⟨rfl, fun _ h => h, fun _ h => h, fun h => ⟨h, rfl⟩, fun h => h, Std.le_refl _⟩, ?_, rfl⟩
    refine { hxok with reported := ?_ }
    intro _ _ hb
    simp only [some.injEq, Prod.mk.injEq] at hb
    rw [← hb.1, ← hb.2]
    exact ⟨hdoing, rfl, hmem⟩
  simp only [step, hg, hx] at hstep
  cases hstep
  have hreport := h.evolve hx hkept s.m fun _ _ hk => ⟨hk, fun _ hfly => hfly⟩
  refine hreport.trans (hreport.inv.goto g _ ?_)
  simp only [PcOk, State.goto, update_self]
  refine ⟨c, hq, _, update_self _ _ _, hresult, ?_⟩
  rw [decide_eq_false_iff_not, not_lt, Nat.le_zero]
  exact fun hdups => ⟨by simp [hdoing], hdups⟩

theorem Inv.follower_step [DecidableEq K] (h : s.Inv) (hg : s.pc g = .follower key c)
    (hstep : s.step g = some t) : s.Advances t := by
  have hq := h.pcs g
  unfold PcOk at hq
  simp only [hg] at hq
  obtain ⟨x, hx, _⟩ := h.served_call hq
  simp only [step, hg, hx, ite_none_right_eq_some, some.injEq] at hstep
  rw [← hstep.2]
  apply h.goto
  simp only [PcOk, State.goto, update_self]
  exact ⟨hq, x, hx, (h.calls c x hx).landed_iff.mp hstep.1⟩

theorem Inv.followerOut_step [DecidableEq K] (h : s.Inv) (hg : s.pc g = .followerOut key c)
    (hstep : s.step g = some t) : s.Advances t := by
  have hq := h.pcs g
  unfold PcOk at hq
  simp only [hg] at hq
  obtain ⟨hq, x, hx, hland⟩ := hq
  obtain ⟨_, _, hresult, hout⟩ := (h.calls c x hx).out_of_landed hland
  simp only [step, hg, hx, hout] at hstep
  cases hstep
  apply h.goto
  simp only [PcOk, State.goto, update_self]
  exact ⟨c, hq, x, hx, hresult, nofun⟩

theorem Inv.step [DecidableEq K] (h : s.Inv) (hstep : s.step g = some t) : s.Advances t := by
  cases hg : s.pc g
  case leader => exact h.leader_step hg hstep
  case leaderOut => exact h.leaderOut_step hg hstep
  case follower => exact h.follower_step hg hstep
  case followerOut => exact h.followerOut_step hg hstep
  all_goals simp only [State.step, hg, reduceCtorEq] at hstep
  case «do» => exact h.doLocked hstep
  case doChan => exact h.doChanLocked hstep
  case forgetUnshared => exact h.forgetLocked hstep

section Exec

omit [DecidableEq G]

variable {x x' : Call G K V E}

section Doing

variable (h : x.Ok) (hdoing : x.doing ≠ .returned)
  (hsame : x'.key = x.key ∧ x'.dups = x.dups ∧ x'.callers = x.callers ∧ x'.reported = x.reported)
  (hwg : x'.wg = if x'.inFlight then 1 else 0) (hstored : x'.Stored)
  (hresult : ∀ r, x.result = some r → x'.result = some r) (hland : x.inFlight = false → x'.inFlight = false)
  (hrank : x'.doing.rank ≤ x.doing.rank)
include h hdoing hsame hwg hstored hresult hland hrank

theorem ok_of_doing (hnodup : x'.pending.Nodup) : x.Grows x' ∧ x'.Ok := by
  obtain ⟨hkey, hdups, hcallers, hreported⟩ := hsame
  constructor
  . refine ⟨hkey, hresult, ?_, fun hfly => ⟨hland hfly, hdups⟩, fun hret => (hdoing hret).elim, hrank⟩
    rw [hcallers]
    exact fun _ hx => hx
  refine ⟨hwg, hstored, ?_, hnodup, ?_⟩
  . rw [hcallers, hdups]
    exact h.callers
  . intro g b hb
    rw [hreported] at hb
    exact (hdoing (h.reported g b hb).1).elim

theorem kept_of_doing (hpending : x'.pending = x.pending) : Kept x x' := by
  obtain ⟨hgrows, hok⟩ := ok_of_doing h hdoing hsame hwg hstored hresult hland hrank (hpending ▸ h.nodup)
  exact ⟨hgrows, hok, hpending⟩

end Doing

section

variable (h : s.Inv) (hx : s.calls c = some x)
include h hx

attribute [local simp] Prod.Lex.toLex_le_toLex DoCall.rank

theorem Inv.exec_doing (hdoing : x.doing ≠ .returned)
    (hsame : x'.key = x.key ∧ x'.dups = x.dups ∧ x'.callers = x.callers ∧ x'.reported = x.reported)
    (hwg : x'.wg = x.wg) (hfly : x'.inFlight = x.inFlight) (hstored : x'.Stored)
    (hresult : ∀ r, x.result = some r → x'.result = some r) (hrank : x'.doing.rank ≤ x.doing.rank)
    (hpending : x'.pending = x.pending) : s.Advances (s.setCall c x') := by
  have hok := h.calls c x hx
  have hkept : Kept x x' :=
    kept_of_doing hok hdoing hsame (by rw [hwg, hok.wg, hfly]) hstored hresult hfly.trans hrank hpending
  exact h.evolve hx hkept s.m fun _ _ hk => ⟨hk, fun _ => hfly.trans⟩

theorem Inv.exec_run (hdoing : x.doing = .run) (r : V × E)
    : s.Advances (s.setCall c { x with doing := .store r.1 r.2, result := some r }) := by
  have hstored := (h.calls c x hx).stored
  simp only [Call.Stored, hdoing] at hstored
  refine h.exec_doing hx ?_ ⟨rfl, rfl, rfl, rfl⟩ rfl ?_ rfl ?_ ?_ ?_
  all_goals simp [Call.inFlight, Call.pending, hdoing, hstored]

theorem Inv.exec_store (hdoing : x.doing = .store v e)
    : s.Advances (s.setCall c { x with doing := .lock v e, out := some (v, e) }) := by
  have hstored := (h.calls c x hx).stored
  simp only [Call.Stored, hdoing] at hstored
  refine h.exec_doing hx ?_ ⟨rfl, rfl, rfl, rfl⟩ rfl ?_ ⟨hstored, rfl⟩ ?_ ?_ ?_
  all_goals simp [Call.inFlight, Call.pending, hdoing]

theorem Inv.exec_sent (hdoing : x.doing = .send v e shared [])
    : s.Advances (s.setCall c { x with doing := .returned }) := by
  have hstored := (h.calls c x hx).stored
  simp only [Call.Stored, hdoing] at hstored
  refine h.exec_doing hx ?_ ⟨rfl, rfl, rfl, rfl⟩ rfl ?_ ⟨v, e, hstored.1, hstored.2.1⟩ ?_ ?_ ?_
  all_goals simp [Call.inFlight, Call.pending, hdoing]

theorem Inv.exec_lock [DecidableEq K] (hdoing : x.doing = .lock v e) : s.Advances { s.setCall c { x with
          doing := .send v e (0 < x.dups) x.chans, wg := x.wg - 1, chans := [] } with
        m := s.m.map fun m => if m x.key = some c then update m x.key none else m } := by
  have hok := h.calls c x hx
  have hwg := hok.wg
  have hstored := hok.stored
  simp only [Call.inFlight, Call.Stored, hdoing] at hwg hstored
  have hkept : Kept x { x with doing := .send v e (0 < x.dups) x.chans, wg := x.wg - 1, chans := [] } := by
    refine kept_of_doing hok (by simp [hdoing]) ⟨rfl, rfl, rfl, rfl⟩ ?_ ⟨hstored.1, hstored.2, rfl⟩ (fun _ hr => hr)
      ?_ ?_ ?_
    . simp [hwg]
    . simp
    . simp [hdoing]
    . simp [Call.pending, hdoing]
  refine h.evolve hx hkept _ ?_
  -- The call is not in the map any more, and it was there at most under its own key.
  intro k d hk
  have hkeep : s.lookup k = some d ∧ d ≠ c := by
    unfold lookup at hk ⊢
    cases hm : s.m with
    | none => simp [hm] at hk
    | some m =>
      have hown : ∀ k, m k = some c → k = x.key := by
        intro k hmk
        have hlookup : s.lookup k = some c := by simp [lookup, hm, hmk]
        obtain ⟨_, hy, hkey, _⟩ := h.map k c hlookup
        rw [hx, some.injEq] at hy
        rw [hy, hkey]
      simp only [hm, map_some, bind_some] at hk ⊢
      split at hk
      . by_cases hne : k = x.key
        . simp [hne] at hk
        . rw [update_of_ne hne] at hk
          refine ⟨hk, ?_⟩
          intro heq
          exact hne (hown k (heq ▸ hk))
      . next hnot =>
        refine ⟨hk, ?_⟩
        rintro rfl
        rw [hown k hk] at hk
        exact hnot hk
  exact ⟨hkeep.1, fun heq => (hkeep.2 heq).elim⟩

theorem Inv.exec_send (hdoing : x.doing = .send v e shared (ch :: chans))
    (hy : s.channels ch = some y) : s.Advances { s.setCall c { x with doing := .send v e shared chans } with
        channels := update s.channels ch
          (some { y with sent := y.sent ++ [{ val := v, err := e, shared := shared }] }) } := by
  have hok := h.calls c x hx
  have hwg := hok.wg
  have hnodup := hok.nodup
  have hstored := hok.stored
  have hpending : x.pending = ch :: chans := by simp [Call.pending, hdoing]
  rw [hpending, nodup_cons] at hnodup
  simp only [Call.inFlight, Call.Stored, hdoing] at hwg hstored
  obtain ⟨_, hz, hcall, hsent⟩ := h.pending c x hx ch (by simp [hpending])
  rw [hy, some.injEq] at hz
  rw [← hz] at hcall hsent
  obtain ⟨_, hd, hkey, hfly, hmem⟩ := (h.channel ch y hy).1
  rw [hcall, hx, some.injEq] at hd
  have hnext : x.Grows { x with doing := .send v e shared chans } ∧
      Call.Ok { x with doing := .send v e shared chans } := by
    refine ok_of_doing hok (by simp [hdoing]) ⟨rfl, rfl, rfl, rfl⟩ hwg hstored (fun _ hr => hr) ?_ ?_ hnodup.2
    . simp
    . simp [hdoing]
  have ht : Touches s { s.setCall c { x with doing := .send v e shared chans } with
        channels := update s.channels ch
          (some { y with sent := y.sent ++ [{ val := v, err := e, shared := shared }] }) }
      c x { x with doing := .send v e shared chans } ch
      { y with sent := y.sent ++ [{ val := v, err := e, shared := shared }] } := by
    constructor
    case old => exact hx
    case calls => rfl
    case channels => rfl
    case grows => exact hnext.1
    case ok => exact hnext.2
    case fly => simp [hdoing]
    case served =>
      rw [← hd] at hkey hmem
      refine ⟨?_, hmem⟩
      rw [hkey, ← hcall, ← hfly]
    case same =>
      intro w hw
      rw [hy, some.injEq] at hw
      rw [← hw]
    case pending =>
      intro a
      rw [hpending]
      simp only [Call.pending, mem_cons]
      split <;> simp_all
    case gotten =>
      refine .inr ⟨rfl, v, e, hstored.1, ?_⟩
      simp [hsent, hstored.2.2]
    case next =>
      refine ⟨rfl, le_rfl, ?_⟩
      apply lt_of_not_ge
      intro hle
      rw [h.nextChan ch hle] at hy
      cases hy
    case map => rfl
  exact Inv.touch ht h rfl rfl

end

theorem Inv.exec [DecidableEq K] (h : s.Inv) (hexec : s.exec c r = some t) : s.Advances t := by
  unfold State.exec at hexec
  split at hexec
  . contradiction
  next x hx =>
  cases hdoing : x.doing with
  | run =>
    simp only [hdoing] at hexec
    cases hexec
    exact h.exec_run hx hdoing r
  | store =>
    simp only [hdoing] at hexec
    cases hexec
    exact h.exec_store hx hdoing
  | lock =>
    simp only [hdoing] at hexec
    cases hexec
    exact h.exec_lock hx hdoing
  | returned => simp [hdoing] at hexec
  | send _ _ _ chans =>
    cases chans with
    | nil =>
      simp only [hdoing] at hexec
      cases hexec
      exact h.exec_sent hx hdoing
    | cons =>
      simp only [hdoing] at hexec
      split at hexec
      . contradiction
      next y hy =>
      rw [ite_none_right_eq_some, some.injEq] at hexec
      rw [← hexec.2]
      exact h.exec_send hx hdoing hy

end Exec

end State

end Singleflight

end Sync
