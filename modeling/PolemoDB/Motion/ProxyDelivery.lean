import PolemoDB.Motion.ProxyClient

/-!
# Delivery across the generations of a proxy client

At any time one generation is registered, or none. The generations before it are closed and have
been written their DATA; the one after it may wait to be registered, and all others are new. What
has arrived and was not handled yet is in one cache (`Between`): that of the placeholder, or that of
the registered client, whose own direction to the backend is shut down then.

That this is kept needs two conditions on the events (`eventOk`), which the code does not check:

* a BYE is not cached. If it arrives while the client of the generation before is still shutting
  down, that client handles it, for which it is nothing new, and the BYE is lost: the next
  generation is not shut down and is written the DATA of the one after it (`proxy_loses_bye`);
* only one client can wait as a successor.
-/

namespace PolemoDB.Motion

open PolemoDB.Lib List Option ProxyState Function Nat ProxyClient

universe u

section Delivery

variable {α : Type u} {data : ℕ → List α} {s s' : ProxyState α} {c : ProxyClient α} {g gen : ℕ}
  {pkts : List (P2cPkt α)} {rest : List α}

/-! ## The packets between two places of the stream -/

/-- The packets from the first of generation `g` up to the place where `rest` is left of generation
`gen`. -/
inductive Between (data : ℕ → List α) : ℕ → List (P2cPkt α) → ℕ → List α → Prop
  | here {g : ℕ} {pre rest : List α} (h : pre ++ rest = data g) :
    Between data g (pre.map .data) g rest
  | next {g gen : ℕ} {pkts : List (P2cPkt α)} {rest : List α}
      (h : Between data (g + 1) pkts gen rest) :
      Between data g ((data g).map .data ++ .bye :: pkts) gen rest

theorem Between.refl (data : ℕ → List α) (g : ℕ) : Between data g [] g (data g) :=
  @Between.here α data g [] (data g) rfl

theorem Between.le (h : Between data g pkts gen rest) : g ≤ gen := by
  induction h with
  | here _ => exact le_refl _
  | next _ ih => exact le_of_succ_le ih

theorem Between.concat_data {a : α} (h : Between data g pkts gen (a :: rest)) :
    Between data g (pkts ++ [.data a]) gen rest := by
  generalize hl : a :: rest = l at h
  induction h with
  | @here g pre l h =>
    subst hl
    have hmap : (pre ++ [a]).map P2cPkt.data = pre.map .data ++ [.data a] := map_append
    rw [← hmap]
    exact .here (by rw [append_assoc]; exact h)
  | next _ ih =>
    rw [append_assoc, cons_append]
    exact .next (ih hl)

theorem Between.concat_bye (h : Between data g pkts gen []) :
    Between data g (pkts ++ [.bye]) (gen + 1) (data (gen + 1)) := by
  generalize hl : ([] : List α) = l at h
  induction h with
  | @here g pre l h =>
    subst hl
    rw [append_nil] at h
    rw [h]
    exact .next (.refl data (g + 1))
  | next _ ih =>
    rw [append_assoc, cons_append]
    exact .next (ih hl)

/-! ## The cache of a new client -/

/-- The client after DATA packets were handed to libuv. -/
def ProxyClient.writes (c : ProxyClient α) (ds : List α) : ProxyClient α :=
  { c with sending := c.sending + ds.length, writing := c.writing ++ ds }

theorem ProxyClient.consume_shutting (h : c.p2cShutting = true) (ps : List (P2cPkt α)) :
    c.consume ps = { c with pkts := ps } := by
  cases ps with
  | nil => rfl
  | cons p ps => rw [consume, if_pos h]

theorem ProxyClient.consume_data (ps : List (P2cPkt α)) (ds : List α) :
    ∀ {c : ProxyClient α}, c.p2cShutting = false →
      c.consume (ds.map .data ++ ps) = (c.writes ds).consume ps := by
  induction ds with
  | nil => simp [writes]
  | cons a ds ih =>
    intro c h
    rw [map_cons, cons_append, consume, if_neg (by simp [h]), onP2cDataOpen, ih (c := c.write a) h]
    congr 1
    simp [write, writes]
    omega

/-- The client of a generation, once it is registered, with the packets that were cached for it. -/
def ProxyClient.opened (pkts : List (P2cPkt α)) : ProxyClient α :=
  handleP2cCache { new with registered := true, reading := true, pkts := pkts }

/-- What has been handled of the stream by the client of generation `g`: it is open and all that
arrived is its own DATA, or it got its BYE and caches what came later. -/
inductive Handled (data : ℕ → List α) (gen : ℕ) (rest : List α) (g : ℕ) (c : ProxyClient α) : Prop
  | opened (hs : c.p2cShutting = false) (hp : c.pkts = []) (hg : gen = g)
      (hd : c.written ++ c.writing ++ rest = data g)
  | shutting (hs : c.p2cShutting = true) (hd : c.written ++ c.writing = data g)
      (hb : Between data (g + 1) c.pkts gen rest)

theorem Handled.congr {c' : ProxyClient α} (h : Handled data gen rest g c)
    (hs : c'.p2cShutting = c.p2cShutting) (hp : c'.pkts = c.pkts)
    (hd : c'.written ++ c'.writing = c.written ++ c.writing) : Handled data gen rest g c' := by
  cases h with
  | opened hs' hp' hg hd' => exact .opened (hs.trans hs') (hp.trans hp') hg (hd ▸ hd')
  | shutting hs' hd' hb => exact .shutting (hs.trans hs') (hd.trans hd') (hp ▸ hb)

/-- What holds of the client that is registered. -/
structure Current (c : ProxyClient α) : Prop where
  registered : c.registered = true
  reading : c.reading = true
  closing : c.closing = false
  closed : c.closed = false
  closeReqs : c.closeReqs = 0
  sending : c.sending = c.writing.length + c.acking + if c.c2pShutting = true ∧
    c.c2pShutted = false then 1 else 0
  c2p : c.c2pShutted = true → c.c2pShutting = true
  p2c : c.p2cShutted = true → c.p2cShutting = true ∧ c.writing = []

theorem ProxyClient.opened_spec (h : Between data g pkts gen rest) :
    Current (opened pkts) ∧ Handled data gen rest g (opened pkts) ∧
    (opened pkts).successor = none := by
  cases h with
  | @here _ pre _ h =>
    have heq : opened (pre.map P2cPkt.data) = { new with
          registered := true, reading := true, sending := pre.length, writing := pre, pkts :=
            [] } := by
      have hdata := consume_data [] pre
        (c := { new with registered := true, reading := true, pkts := pre.map .data }) rfl
      rw [append_nil] at hdata
      refine hdata.trans ?_
      simp [writes, consume, new]
    rw [heq]
    exact ⟨⟨rfl, rfl, rfl, rfl, rfl, rfl, nofun, nofun⟩, .opened rfl rfl rfl h, rfl⟩
  | @next _ _ pkts _ h =>
    have heq : opened ((data g).map P2cPkt.data ++ .bye :: pkts) = { new with
          registered := true
          reading := true
          p2cShutting := true
          sending := (data g).length
          writing := data g
          pkts := pkts } := by
      rw [opened, handleP2cCache, consume_data _ _ rfl, consume,
        if_neg (by simp [writes, new]), onP2cDataOpen,
        consume_shutting rfl]
      simp [writes, new]
    rw [heq]
    exact ⟨⟨rfl, rfl, rfl, rfl, rfl, rfl, nofun, nofun⟩, .shutting rfl rfl h, rfl⟩

/-! ## The client table -/

/-- What holds of a client that was closed. -/
structure Gone (d : List α) (c : ProxyClient α) : Prop where
  registered : c.registered = false
  reading : c.reading = true
  closing : c.closing = true
  closeReqs : c.closeReqs + c.closed.toNat = 1
  acking : c.acking = 0
  writing : c.writing = []
  written : c.written = d
  c2p : c.c2pShutted = true
  p2c : c.p2cShutting = true ∧ c.p2cShutted = true

/-- The packets that are cached when no client is registered. -/
def cachedPkts : Option (ProxyEntry α) → List (P2cPkt α)
  | some (.placeholder pkts) => pkts
  | _ => []

/-- No client is registered. -/
structure Vacant (data : ℕ → List α) (s : ProxyState α) : Prop where
  error : s.error = none
  entry : ∀ g, s.entry ≠ some (.client g)
  gone : ∀ j, j < s.started → Gone (data j) (s.clients j)
  fresh : ∀ j, s.started ≤ j → s.clients j = .new
  cached : Between data s.started (cachedPkts s.entry) s.gen s.rest

/-- The client of generation `g` is registered. -/
structure Active (data : ℕ → List α) (g : ℕ) (s : ProxyState α) : Prop where
  error : s.error = none
  entry : s.entry = some (.client g)
  gone : ∀ j, j < g → Gone (data j) (s.clients j)
  fresh : ∀ j, g < j → s.clients j = .new
  current : Current (s.clients g)
  handled : Handled data s.gen s.rest g (s.clients g)
  next : (s.clients g).successor = none ∧ s.started = g + 1 ∨
    (s.clients g).successor = some (g + 1) ∧ s.started = g + 2

/-- No packet is lost or with the wrong client. -/
def DeliveryInv (data : ℕ → List α) (s : ProxyState α) : Prop := Vacant data s ∨
    ∃ g, Active data g s

@[simp] theorem ProxyState.set_clients_self (s : ProxyState α) (g : ℕ) (c : ProxyClient α) :
    (s.set g c).clients g = c :=
  update_self ..

theorem ProxyState.set_clients_ne (s : ProxyState α) {g j : ℕ} (h : j ≠ g) (c : ProxyClient α) :
    (s.set g c).clients j = s.clients j :=
  update_of_ne h ..

theorem Active.move (h : Active data g s) (hc : Current c) (hh : Handled data gen rest g c)
    (hs : c.successor = (s.clients g).successor) :
    Active data g (({ s with gen := gen, rest := rest } : ProxyState α).set g c) where
  error := h.error
  entry := h.entry
  gone := fun j hj => (set_clients_ne _ (Nat.ne_of_lt hj) _).symm ▸ h.gone j hj
  fresh := fun j hj => (set_clients_ne _ (ne_of_gt hj) _).trans (h.fresh j hj)
  current := by rwa [set_clients_self]
  handled := by rwa [set_clients_self]
  next := by
    rw [set_clients_self, hs]
    exact h.next

theorem Active.set (h : Active data g s) (hc : Current c) (hh : Handled data s.gen s.rest g c)
    (hs : c.successor = (s.clients g).successor) : Active data g (s.set g c) :=
  h.move hc hh hs

/-! ## Closing a client -/

/-- The client when it was closed. -/
def ProxyClient.left (c : ProxyClient α) : ProxyClient α := { c with
    closing := true
    registered := false
    successor := none
    pkts := []
    closeReqs := c.closeReqs + 1 }

theorem Current.shutted (h : Current c) (hh : Handled data gen rest g c)
    (hp : c.p2cShutted = true) : c.written = data g ∧ Between data (g + 1) c.pkts gen rest := by
  obtain ⟨hshut, hw⟩ := h.p2c hp
  cases hh with
  | opened hs _ _ _ =>
    rw [hs] at hshut
    cases hshut
  | shutting _ hd hb =>
    rw [hw, append_nil] at hd
    exact ⟨hd, hb⟩

theorem Current.left_gone (h : Current c) (hh : Handled data gen rest g c) (hs : c.sending = 0)
    (hc : c.c2pShutted = true) (hp : c.p2cShutted = true) : Gone (data g) c.left := by
  have hsum := h.sending
  obtain ⟨hshut, hw⟩ := h.p2c hp
  refine ⟨rfl, h.reading, rfl, ?_, ?_, hw, (h.shutted hh hp).1, hc, hshut, hp⟩
  · simp [left, h.closeReqs, h.closed]
  · show c.acking = 0
    omega

theorem ProxyState.register_vacant (he : ∀ j, s.entry ≠ some (.client j))
    (hc : s.clients g = new.cacheP2cPkts pkts) :
    (s.register g).maybeStartReadData g =
      { s.set g (.opened (pkts ++ cachedPkts s.entry)) with entry := some (.client g) } := by
  cases hentry : s.entry with
  | none =>
    simp [register, hentry, maybeStartReadData, set, hc, opened, new, cacheP2cPkts, cachedPkts]
  | some x =>
    cases x with
    | client j => exact absurd hentry (he j)
    | placeholder ps =>
      simp [register, hentry, maybeStartReadData, set, hc, opened, new, cacheP2cPkts, cachedPkts]

theorem ProxyState.close_last (hr : (s.clients g).registered = true)
    (hc : (s.clients g).closing = false) (hs : (s.clients g).successor = none) :
    s.close g = { s.set g (s.clients g).left with
        entry := if (s.clients g).pkts.isEmpty then none else some (.placeholder (s.clients g).pkts)
          } := by
  simp only [close, hc, unregister, set_clients_self, hr, hs]
  cases (s.clients g).pkts.isEmpty <;> simp [set, left]

theorem ProxyState.unregister_next {next : ℕ} (hr : (s.clients g).registered = true)
    (hs : (s.clients g).successor = some next) (hne : next ≠ g) (hnew : s.clients next = .new) :
    s.unregister g = { (s.set next (.opened (s.clients g).pkts)).set g
          { s.clients g with registered := false, successor := none, pkts := [] } with
        entry := some (.client next) } := by
  have hnext : ∀ c, (s.set g c).clients next = .new := fun c => by rw [set_clients_ne s hne, hnew]
  simp only [unregister, hr, if_true, hs]
  rw [hnext, register_vacant (fun _ h => by cases h) (set_clients_self ..)]
  simp only [set, cachedPkts, append_nil, update_idem]
  rw [update_comm hne]

theorem ProxyState.close_next {next : ℕ} (hr : (s.clients g).registered = true)
    (hc : (s.clients g).closing = false) (hs : (s.clients g).successor = some next) (hne : next ≠ g)
    (hnew : s.clients next = .new) :
    s.close g = { (s.set next (.opened (s.clients g).pkts)).set g (s.clients g).left with
        entry := some (.client next) } := by
  have hun := @ProxyState.unregister_next α (s.set g { s.clients g with closing := true }) g next
    (by rw [set_clients_self]; exact hr) (by rw [set_clients_self]; exact hs) hne
    (by rw [set_clients_ne s hne, hnew])
  simp only [close, hc, Bool.false_eq_true, if_false, hun]
  simp only [set, update_self, left, update_idem]
  rw [update_comm hne, update_idem, update_comm hne.symm]

theorem Active.close (h : Active data g s) (hs : (s.clients g).sending = 0)
    (hc : (s.clients g).c2pShutted = true) (hp : (s.clients g).p2cShutted = true) :
    DeliveryInv data (s.close g) := by
  have hgone := h.current.left_gone h.handled hs hc hp
  obtain ⟨-, hbetween⟩ := h.current.shutted h.handled hp
  have hgones : ∀ t : ProxyState α, (∀ j, j < g → t.clients j = s.clients j) → ∀ j, j < g + 1 →
      Gone (data j) ((t.set g (s.clients g).left).clients j) := by
    intro t ht j hj
    by_cases heq : j = g
    · subst heq
      rw [set_clients_self]
      exact hgone
    · have hlt : j < g := by omega
      rw [set_clients_ne t heq, ht j hlt]
      exact h.gone j hlt
  rcases h.next with ⟨hsucc, hstarted⟩ | ⟨hsucc, hstarted⟩
  · rw [close_last h.current.registered h.current.closing hsucc]
    refine .inl ⟨h.error, fun j hj => ?_, fun j hj => ?_, fun j hj => ?_, ?_⟩
    · split at hj <;> cases hj
    · exact hgones s (fun _ _ => rfl) j (hstarted ▸ hj)
    · have hj' : g + 1 ≤ j := hstarted ▸ hj
      exact (set_clients_ne s (by omega) _).trans (h.fresh j (by omega))
    show Between data s.started _ s.gen s.rest
    rw [hstarted]
    cases hpkts : (s.clients g).pkts with
    | nil | cons p ps =>
      rw [hpkts] at hbetween
      exact hbetween
  · rw [close_next h.current.registered h.current.closing hsucc (succ_ne_self g)
      (h.fresh _ (lt_succ_self g))]
    obtain ⟨hcur, hhandled, hnone⟩ := opened_spec hbetween
    have hclient : ((s.set (g + 1) (.opened (s.clients g).pkts)).set g (s.clients g).left).clients
        (g + 1) = .opened (s.clients g).pkts := by
      rw [set_clients_ne _ (succ_ne_self g), set_clients_self]
    rw [← hclient] at hcur hhandled hnone
    refine .inr ⟨g + 1, h.error, rfl, fun j hj => ?_, fun j hj => ?_, hcur, hhandled,
      .inl ⟨hnone, hstarted⟩⟩
    · exact hgones _ (fun j hj => set_clients_ne s (by omega) _) j hj
    · refine (set_clients_ne _ (by omega) _).trans ?_
      exact (set_clients_ne s (by omega) _).trans (h.fresh j (by omega))

theorem Active.maybeClose (h : Active data g s) : DeliveryInv data (s.maybeClose g) := by
  rw [ProxyState.maybeClose]
  split
  next hc => exact h.close hc.1 hc.2.1 hc.2.2
  · exact .inr ⟨g, h⟩

/-! ## Events of the clients -/

/-- Only the registered client has events, apart from the close callback of those before it. -/
theorem DeliveryInv.active_of {j : ℕ} (h : DeliveryInv data s) (hnew : s.clients j ≠ .new)
    (hgone : ¬ Gone (data j) (s.clients j)) : Active data j s := by
  rcases h with h | ⟨g, h⟩
  · rcases lt_or_ge j s.started with hj | hj
    · exact absurd (h.gone j hj) hgone
    · exact absurd (h.fresh j hj) hnew
  rcases lt_trichotomy j g with hj | rfl | hj
  · exact absurd (h.gone j hj) hgone
  · exact h
  · exact absurd (h.fresh j hj) hnew

section

variable (h : Active data g s)
include h

theorem Active.setAck (hc : Current c) (hh : Handled data s.gen s.rest g c)
    (hs : c.successor = (s.clients g).successor) :
    Active data g (s.set g c.maybeSendAckMessage) := by
  unfold ProxyClient.maybeSendAckMessage
  split
  · refine h.set { hc with sending := ?_ } (hh.congr rfl rfl rfl) hs
    have hsum := hc.sending
    simp only
    omega
  · exact h.set hc hh hs

theorem Active.sentData {a : α} {ds : List α} (hw : (s.clients g).writing = a :: ds) :
    Active data g (s.set g ((s.clients g).onSentP2cData a ds)) := by
  have hc := h.current
  have hmoved : ((s.clients g).written ++ [a]) ++ ds = (s.clients g).written ++
      (s.clients g).writing := by
    rw [hw, append_assoc, singleton_append]
  refine h.setAck { hc with sending := ?_, p2c := fun hp => ?_ } (h.handled.congr rfl rfl hmoved)
    rfl
  · have hs := hc.sending
    rw [hw, length_cons] at hs
    simp only
    omega
  · obtain ⟨-, hempty⟩ := hc.p2c hp
    rw [hw] at hempty
    cases hempty

theorem Active.sentAck (ha : 0 < (s.clients g).acking) : Active data g (s.set g
      { s.clients g with
        acking := (s.clients g).acking - 1, sending := (s.clients g).sending - 1 }) := by
  have hc := h.current
  refine h.set { hc with sending := ?_ } ?_ rfl
  · have hs := hc.sending
    simp only
    omega
  · exact h.handled.congr rfl rfl rfl

theorem Active.sentBye (hb : (s.clients g).c2pShutting = true)
    (hn : (s.clients g).c2pShutted = false) :
    Active data g (s.set g { s.clients g with
      c2pShutted := true, sending := (s.clients g).sending - 1 }) := by
  have hc := h.current
  refine h.set { hc with sending := ?_, c2p := fun _ => hb } ?_ rfl
  · have hs := hc.sending
    rw [if_pos ⟨hb, hn⟩] at hs
    simp [hs]
  · exact h.handled.congr rfl rfl rfl

theorem Active.onShutdown (hp : (s.clients g).p2cShutting = true)
    (hw : (s.clients g).writing = []) :
    Active data g (s.set g { s.clients g with p2cShutted := true }) := by
  have hc := h.current
  refine h.set { hc with p2c := fun _ => ⟨hp, hw⟩ } (h.handled.congr rfl rfl rfl) rfl

theorem Active.shutdownC2p : DeliveryInv data (s.shutdownC2p g) := by
  have hc := h.current
  rw [ProxyState.shutdownC2p]
  split
  · exact h.maybeClose
  next hnot =>
    rw [if_pos hc.registered]
    have hnot' : (s.clients g).c2pShutting = false := Bool.eq_false_iff.2 hnot
    have hn : (s.clients g).c2pShutted = false := Bool.eq_false_iff.2 fun h => hnot (hc.c2p h)
    refine .inr ⟨g, h.set { hc with sending := ?_, c2p := fun _ => rfl } ?_ rfl⟩
    · have hs := hc.sending
      rw [hnot'] at hs
      simp [hs, hn]
    · exact h.handled.congr rfl rfl rfl

end

theorem DeliveryInv.setGone {j : ℕ} (h : DeliveryInv data s) (hj : Gone (data j) (s.clients j))
    (hc : Gone (data j) c) : DeliveryInv data (s.set j c) := by
  have hgone : ∀ i, Gone (data i) (s.clients i) → Gone (data i) ((s.set j c).clients i) := by
    intro i hi
    by_cases heq : i = j
    · subst heq
      rwa [set_clients_self]
    · rwa [set_clients_ne s heq]
  have hother : ∀ i, (s.clients i).closing = false → (s.set j c).clients i = s.clients i := by
    intro i hi
    refine set_clients_ne s (fun heq => ?_) c
    rw [heq, hj.closing] at hi
    cases hi
  have hfresh : ∀ i, s.clients i = .new → (s.set j c).clients i = .new := fun i hi =>
    (hother i (by rw [hi]; rfl)).trans hi
  rcases h with h | ⟨g, h⟩
  · exact .inl { h with
      gone := fun i hi => hgone i (h.gone i hi), fresh := fun i hi => hfresh i (h.fresh i hi) }
  have hg := hother g h.current.closing
  exact .inr ⟨g, h.error, h.entry, fun i hi => hgone i (h.gone i hi),
    fun i hi => hfresh i (h.fresh i hi), hg.symm ▸ h.current, hg.symm ▸ h.handled,
    hg.symm ▸ h.next⟩

theorem DeliveryInv.onClose {j : ℕ} (h : DeliveryInv data s) (hj : 0 < (s.clients j).closeReqs) :
    (s.clients j).closed = false ∧ DeliveryInv data
      (s.set j { s.clients j with closed := true, closeReqs := (s.clients j).closeReqs - 1 }) := by
  have hgone : Gone (data j) (s.clients j) := by
    by_contra hnot
    have hnew : s.clients j ≠ .new := fun heq => by
      rw [heq] at hj
      exact absurd hj (lt_irrefl 0)
    have hreqs := (h.active_of hnew hnot).current.closeReqs
    omega
  have hreqs := hgone.closeReqs
  cases hclosed : (s.clients j).closed with
  | true =>
    rw [hclosed, Bool.toNat_true] at hreqs
    omega
  | false =>
    refine ⟨rfl, h.setGone hgone { hgone with closeReqs := ?_ }⟩
    simp only [Bool.toNat_true]
    omega

/-! ## Arrivals and new clients -/

def ProxyState.registered (s : ProxyState α) : Option (ProxyClient α) :=
  match s.entry with
  | some (.client g) => some (s.clients g)
  | _ => none

theorem Active.mem_registered (h : Active data g s) : s.clients g ∈ s.registered := by
  rw [ProxyState.registered, h.entry]
  rfl

/-- The conditions on the events: a BYE does not arrive while the client of the generation before is
still shutting down, and no client comes while another is waiting. -/
def eventOk (s : ProxyState α) : ClientEvent → Prop
  | .arrive => s.rest.isEmpty = true → ∀ c ∈ s.registered, c.p2cShutting = false
  | .hello => ∀ c ∈ s.registered, c.successor = none
  | _ => True

instance (s : ProxyState α) : (e : ClientEvent) → Decidable (eventOk s e)
  | .arrive => inferInstanceAs (Decidable (_ → _))
  | .hello => inferInstanceAs (Decidable (∀ c ∈ s.registered, c.successor = none))
  | .sentData _ | .sentAck _ | .eof _ | .sentBye _ | .onShutdown _ | .onClose _ =>
    inferInstanceAs (Decidable True)

theorem Vacant.route (h : Vacant data s) {pkt : P2cPkt α}
    (hb : Between data s.started (cachedPkts s.entry ++ [pkt]) gen rest) :
    Vacant data (({ s with gen := gen, rest := rest } : ProxyState α).route pkt) := by
  have hroute : ({ s with gen := gen, rest := rest } : ProxyState α).route pkt =
      { s with
        gen := gen, rest := rest, entry := some (.placeholder (cachedPkts s.entry ++ [pkt])) } := by
    cases hentry : s.entry with
    | none => simp [ProxyState.route, cachedPkts]
    | some x =>
      cases x with
      | client g => exact absurd hentry (h.entry g)
      | placeholder ps => simp [ProxyState.route, cachedPkts]
  rw [hroute]
  exact ⟨h.error, nofun, h.gone, h.fresh, hb⟩

theorem Active.route_eq (h : Active data g s) (pkt : P2cPkt α) :
    ({ s with gen := gen, rest := rest } : ProxyState α).route pkt =
      ({ s with gen := gen, rest := rest } : ProxyState α).onP2cData g pkt := by
  rw [route]
  simp only [h.entry]

theorem Active.arriveData (h : Active data g s) {a : α} (hr : s.rest = a :: rest) :
    Active data g (({ s with gen := s.gen, rest := rest } : ProxyState α).route (.data a)) := by
  have hc := h.current
  rw [h.route_eq, ProxyState.onP2cData]
  cases h.handled with
  | opened hs hp hg hd =>
    rw [if_neg (by simp [hs])]
    refine h.move (c := (s.clients g).write a)
      { hc with sending := ?_, p2c := fun hp => ?_ }
      (.opened hs hp hg ?_) rfl
    · have hsum := hc.sending
      show (s.clients g).sending + 1 =
        ((s.clients g).writing ++ [a]).length + (s.clients g).acking +
        if (s.clients g).c2pShutting = true ∧ (s.clients g).c2pShutted = false then 1 else 0
      rw [length_append, length_singleton]
      omega
    · have hshut := (hc.p2c hp).1
      rw [hs] at hshut
      cases hshut
    · rw [hr] at hd
      simp [write, ← hd]
  | shutting hs hd hb =>
    rw [if_pos hs]
    rw [hr] at hb
    exact h.move (c := (s.clients g).cacheP2cPkts [.data a])
      { hc with }
      (.shutting hs hd hb.concat_data) rfl

theorem Active.arriveBye (h : Active data g s) (hr : s.rest = [])
    (hs : (s.clients g).p2cShutting = false) :
    Active data g (({ s with gen := s.gen + 1, rest := data (s.gen + 1) } : ProxyState α).route
    .bye) := by
  have hc := h.current
  rw [h.route_eq, ProxyState.onP2cData, ProxyState.shutdownP2c, if_neg (by simp [hs])]
  cases h.handled with
  | opened _ hp hg hd =>
    rw [hr, append_nil] at hd
    have hb : Between data (g + 1) (s.clients g).pkts (s.gen + 1) (data (s.gen + 1)) := by
      rw [hp, hg]
      exact .refl data (g + 1)
    exact h.move (c := { s.clients g with p2cShutting := true })
      { hc with p2c := fun hp => ⟨rfl, (hc.p2c hp).2⟩ } (.shutting rfl hd hb) rfl
  | shutting hs' _ _ =>
    rw [hs] at hs'
    cases hs'

theorem Vacant.hello (h : Vacant data s) : Active data s.started
      ((({ s with started := s.started + 1 } : ProxyState α).register s.started).maybeStartReadData
        s.started) := by
  have hnew : s.clients s.started = new.cacheP2cPkts [] := h.fresh _ (le_refl _)
  rw [register_vacant (s := { s with started := s.started + 1 }) h.entry hnew]
  obtain ⟨hcur, hhandled, hnone⟩ := opened_spec h.cached
  refine ⟨h.error, rfl, fun j hj => ?_, fun j hj => ?_, ?_, ?_, .inl ⟨?_, rfl⟩⟩
  · exact (set_clients_ne _ (Nat.ne_of_lt hj) _).symm ▸ h.gone j hj
  · exact (set_clients_ne _ (ne_of_gt hj) _).trans (h.fresh j (le_of_lt hj))
  · exact (set_clients_self _ _ _).symm ▸ hcur
  · exact (set_clients_self _ _ _).symm ▸ hhandled
  · exact (set_clients_self _ _ _).symm ▸ hnone

theorem Active.hello (h : Active data g s) (hs : (s.clients g).successor = none) : Active data g
      ((({ s with started := s.started + 1 } : ProxyState α).register s.started).maybeStartReadData
        s.started) := by
  have hstarted : s.started = g + 1 := by
    rcases h.next with ⟨-, hst⟩ | ⟨hsome, -⟩
    · exact hst
    · rw [hs] at hsome
      cases hsome
  have hnew : s.clients (g + 1) = .new := h.fresh _ (lt_succ_self g)
  have hregister : ({ s with started := s.started + 1 } : ProxyState α).register s.started =
      ({ s with started := s.started + 1 } : ProxyState α).set g
        { s.clients g with successor := some (g + 1) } := by
    rw [register, hstarted]
    simp [hnew, new, h.entry, hs]
  rw [hregister, maybeStartReadData, hstarted,
    set_clients_ne _ (succ_ne_self g), if_neg (by simp [hnew, new])]
  have hc := h.current
  refine ⟨h.error, h.entry, fun j hj => ?_, fun j hj => ?_, ?_, ?_, .inr ⟨?_, rfl⟩⟩
  · exact (set_clients_ne _ (Nat.ne_of_lt hj) _).symm ▸ h.gone j hj
  · exact (set_clients_ne _ (ne_of_gt hj) _).trans (h.fresh j hj)
  · rw [set_clients_self]
    exact { hc with }
  · rw [set_clients_self]
    exact h.handled.congr rfl rfl rfl
  · rw [set_clients_self]

/-! ## Runs -/

theorem DeliveryInv.error (h : DeliveryInv data s) : s.error = none := by
  rcases h with h | ⟨g, h⟩
  · exact h.error
  · exact h.error

theorem DeliveryInv.step {e : ClientEvent} (h : DeliveryInv data s) (hok : eventOk s e)
    (hstep : clientStep data s e = some s') : DeliveryInv data s' := by
  unfold clientStep at hstep
  rw [if_neg (by simp [h.error])] at hstep
  cases e with
  | arrive =>
    cases hr : s.rest with
    | cons a rest =>
      simp only [hr, some.injEq] at hstep
      subst hstep
      rcases h with h | ⟨g, h⟩
      · have hc := h.cached
        rw [hr] at hc
        exact .inl (h.route hc.concat_data)
      · exact .inr ⟨g, h.arriveData hr⟩
    | nil =>
      simp only [hr, some.injEq] at hstep
      subst hstep
      rcases h with h | ⟨g, h⟩
      · have hc := h.cached
        rw [hr] at hc
        exact .inl (h.route hc.concat_bye)
      · exact .inr ⟨g, h.arriveBye hr (hok (by rw [hr]; rfl) _ h.mem_registered)⟩
  | hello =>
    simp only [some.injEq] at hstep
    subst hstep
    rcases h with h | ⟨g, h⟩
    · exact .inr ⟨_, h.hello⟩
    · exact .inr ⟨g, h.hello (hok _ h.mem_registered)⟩
  | sentData g =>
    cases hw : (s.clients g).writing with
    | nil =>
      simp only [hw] at hstep
      cases hstep
    | cons a ds =>
      simp only [hw, some.injEq] at hstep
      subst hstep
      have hact : Active data g s := h.active_of (fun hn => by rw [hn] at hw; cases hw)
        (fun hg => by rw [hg.writing] at hw; cases hw)
      exact .inr ⟨g, hact.sentData hw⟩
  | sentAck g =>
    simp only [ite_none_right_eq_some, some.injEq] at hstep
    obtain ⟨ha, rfl⟩ := hstep
    have hact : Active data g s :=
      h.active_of (fun hn => by rw [hn] at ha; exact absurd ha (lt_irrefl 0))
      (fun hg => by rw [hg.acking] at ha; exact absurd ha (lt_irrefl 0))
    exact (hact.sentAck ha).maybeClose
  | eof g =>
    simp only [ite_none_right_eq_some, some.injEq] at hstep
    obtain ⟨⟨hr, hc⟩, rfl⟩ := hstep
    have hact : Active data g s := h.active_of (fun hn => by rw [hn] at hr; cases hr)
      (fun hg => by rw [hg.closing] at hc; cases hc)
    exact hact.shutdownC2p
  | sentBye g =>
    simp only [ite_none_right_eq_some, some.injEq] at hstep
    obtain ⟨⟨hb, hn⟩, rfl⟩ := hstep
    have hact : Active data g s := h.active_of (fun hn => by rw [hn] at hb; cases hb)
      (fun hg => by rw [hg.c2p] at hn; cases hn)
    exact (hact.sentBye hb hn).maybeClose
  | onShutdown g =>
    simp only [ite_none_right_eq_some, some.injEq] at hstep
    obtain ⟨⟨hp, hn, hw⟩, rfl⟩ := hstep
    have hact : Active data g s := h.active_of (fun hn => by rw [hn] at hp; cases hp)
      (fun hg => by rw [hg.p2c.2] at hn; cases hn)
    exact (hact.onShutdown hp (List.isEmpty_iff.1 hw)).maybeClose
  | onClose g =>
    simp only [ite_none_right_eq_some, some.injEq] at hstep
    obtain ⟨hj, rfl⟩ := hstep
    obtain ⟨hclosed, hinv⟩ := h.onClose hj
    rw [if_neg (by simp [hclosed])]
    exact hinv

theorem DeliveryInv.start (data : ℕ → List α) : DeliveryInv data (.start data) := .inl {
    error := rfl
    entry := fun _ h => by cases h
    gone := fun j hj => absurd hj (not_lt_zero j)
    fresh := fun _ _ => rfl
    cached := .refl data 0 }

/-- What is the case for a generation, when the packets of generation `gen` arrive. -/
structure Delivered (d : List α) (g gen : ℕ) (c : ProxyClient α) : Prop where
  ownData : c.written ++ c.writing <+: d
  ownBye : c.reading = true → (c.p2cShutting = true ↔ g < gen)
  allData : c.p2cShutting = true → c.written ++ c.writing = d
  allWritten : c.p2cShutted = true → c.written = d

theorem Delivered.of_gone (h : Gone (data g) c) (hlt : g < gen) : Delivered (data g) g gen c := by
  have hall : c.written ++ c.writing = data g := by rw [h.writing, append_nil, h.written]
  exact ⟨⟨[], by rw [hall, append_nil]⟩, fun _ => iff_of_true h.p2c.1 hlt, fun _ => hall,
    fun _ => h.written⟩

theorem Delivered.of_new (d : List α) (g gen : ℕ) : Delivered d g gen .new where
  ownData := nil_prefix
  ownBye := nofun
  allData := nofun
  allWritten := nofun

theorem Delivered.of_current (h : Current c) (hh : Handled data gen rest g c) :
    Delivered (data g) g gen c := by
  have hwritten := fun hp => (h.shutted hh hp).1
  cases hh with
  | opened hs _ hg hd =>
    refine ⟨⟨rest, hd⟩, fun _ => iff_of_false (by simp [hs]) (by omega), fun hs' => ?_, hwritten⟩
    rw [hs] at hs'
    cases hs'
  | shutting hs hd hb =>
    exact ⟨⟨[], by rw [hd, append_nil]⟩, fun _ => iff_of_true hs hb.le, fun _ => hd, hwritten⟩

theorem DeliveryInv.delivered (h : DeliveryInv data s) (g : ℕ) :
    Delivered (data g) g s.gen (s.clients g) := by
  rcases h with h | ⟨j, h⟩
  · rcases lt_or_ge g s.started with hg | hg
    · exact .of_gone (h.gone g hg) (lt_of_lt_of_le hg h.cached.le)
    · rw [h.fresh g hg]
      exact .of_new _ _ _
  have hj : j ≤ s.gen := by
    cases h.handled with
    | opened _ _ hg _ => exact hg.ge
    | shutting _ _ hb => exact le_of_succ_le hb.le
  rcases lt_trichotomy g j with hg | rfl | hg
  · exact .of_gone (h.gone g hg) (lt_of_lt_of_le hg hj)
  · exact .of_current h.current h.handled
  · rw [h.fresh g hg]
    exact .of_new _ _ _

/-- **Delivery across client generations.** If no BYE arrives while the client of the generation
before is still shutting down, and no client comes while another waits, then no error happens, every
backend is written a part of the DATA of its generation, in order and once, and all of it before its
direction is shut down; and the clients whose direction is being shut down are, of all that were
registered, those whose BYE has arrived. -/
theorem proxy_delivery (data : ℕ → List α) (es : List ClientEvent)
    (hok : EventsOk (clientStep data) eventOk es (.start data))
    (hrun : runSteps (clientStep data) es (.start data) = some s) :
    s.error = none ∧ ∀ g, (s.clients g).written ++ (s.clients g).writing <+: data g ∧
      ((s.clients g).reading = true → ((s.clients g).p2cShutting = true ↔ g < s.gen)) ∧
      ((s.clients g).p2cShutting = true → (s.clients g).written ++ (s.clients g).writing = data g) ∧
      ((s.clients g).p2cShutted = true → (s.clients g).written = data g) := by
  have hinv : DeliveryInv data s :=
    runSteps_invariant_of_ok DeliveryInv.step es hok (.start data) hrun
  refine ⟨hinv.error, fun g => ?_⟩
  obtain ⟨hown, hbye, hall, hwritten⟩ := hinv.delivered g
  exact ⟨hown, hbye, hall, hwritten⟩

end Delivery

/-! ## Three generations -/

/-- Each generation has one DATA packet, its number. -/
def numbers (g : ℕ) : List ℕ := [g]

/-- The second client comes while the first is shutting down, and takes its packet from it. -/
def secondWaits : List ClientEvent :=
  [.hello, .arrive, .arrive, .hello, .arrive, .sentData 0, .onShutdown 0, .eof 0, .sentBye 0,
  .onClose 0, .arrive]

theorem proxy_delivery_second : ∃ s, runSteps (clientStep numbers) secondWaits (.start numbers) =
    some s ∧ s.error = none ∧ (s.clients 1).p2cShutting = true ∧
      (s.clients 0).written = [0] ∧ (s.clients 1).written ++ (s.clients 1).writing = [1] := by
  have hend : ∃ s, runSteps (clientStep numbers) secondWaits (.start numbers) = some s ∧
      (s.clients 0).p2cShutted = true ∧ (s.clients 1).p2cShutting = true :=
    runSteps_exists (by decide +kernel)
  obtain ⟨s, hrun, hshutted, hshutting⟩ := hend
  obtain ⟨herror, hclients⟩ := proxy_delivery numbers secondWaits (by decide +kernel) hrun
  exact ⟨s, hrun, herror, hshutting, (hclients 0).2.2.2 hshutted, (hclients 1).2.2.1 hshutting⟩

/-- The BYE of the second generation arrives before the first client is closed; the second client
comes later, and then the DATA of the third generation. -/
def earlyBye : List ClientEvent :=
  [.hello, .arrive, .arrive, .arrive, .arrive, .sentData 0, .onShutdown 0, .eof 0, .sentBye 0,
  .hello, .arrive]

/-- The second client is written the DATA of the third generation, and its BYE is lost. -/
theorem proxy_loses_bye : ∃ s, runSteps (clientStep numbers) earlyBye (.start numbers) = some s ∧
    s.gen = 2 ∧ (s.clients 1).reading = true ∧ (s.clients 1).p2cShutting = false ∧
      (s.clients 1).writing = [1, 2] :=
  runSteps_exists (by decide +kernel)

end PolemoDB.Motion
