import Mathlib.Data.List.AList
import PolemoDB.Lib.Transition

/-!
# Endpoints of parallel retrieve cursors and their tokens (`cdbendpoint.c`)

A process that sends tuples has a slot in shared memory.  The sessions that fetch them show the
token that the hash table has for the session and user of the slot.

* `endpoints_inStep` — slots and tokens agree after every run in which no creation fails to make its
  token.
* `endpoint_left_behind` — such a creation leaves its slot and a token entry behind.
-/

namespace PolemoDB.Cdb.Endpoints

open PolemoDB.Lib List

/-! ## The code -/

def MAX_ENDPOINT_SIZE : ℕ := 1024

/-- The 16 bytes of a token. -/
abbrev Token := BitVec 128

structure EndpointTokenTag where
  sessionID : ℕ
  userID : ℕ
  deriving DecidableEq

/-- `refCount` is a `uint16`; there are fewer slots than it has values. -/
structure EndpointTokenEntry where
  token : Token
  refCount : ℕ
  deriving DecidableEq

/-- A slot that is not empty; `none` is `InvalidPid`. -/
structure Endpoint where
  tag : EndpointTokenTag
  senderPid : Option ℕ
  deriving DecidableEq

abbrev TokenHash := AList fun _ : EndpointTokenTag => EndpointTokenEntry

/-- `CurrentEndpointExecState` with its `endpoint`, the index of a slot, and the static variables of
`create_endpoint_token`. -/
structure Process where
  execState : Option (Option ℕ)
  sessionId : Option ℕ
  currentToken : Token

structure State where
  sharedEndpoints : List (Option Endpoint)
  endpointTokenHash : TokenHash
  /-- the processes that run -/
  procs : ℕ → Option Process

def init : State := ⟨replicate MAX_ENDPOINT_SIZE none, ∅, fun _ => none⟩

/-- `pg_strong_random` writes `bytes` and returns `success`. -/
def createEndpointToken (gpSessionId : ℕ) (bytes : Token) (success : Bool) (pr : Process) :
    Option Token × Process :=
  if pr.sessionId = some gpSessionId then (some pr.currentToken, pr)
  else (if success then some bytes else none,
    { pr with sessionId := some gpSessionId, currentToken := bytes })

/-- Also whether there is no error.  A new entry has the contents `old` at first. -/
def setupEndpointTokenEntry (tokens : TokenHash) (tag : EndpointTokenTag) (bytes : Token)
    (success : Bool) (old : EndpointTokenEntry) (pr : Process) : TokenHash × Process × Bool :=
  match tokens.lookup tag with
  | some entry => (tokens.insert tag { entry with refCount := entry.refCount + 1 }, pr, true)
  | none =>
    match createEndpointToken tag.sessionID bytes success pr with
    | (some token, pr) => (tokens.insert tag ⟨token, 1⟩, pr, true)
    | (none, pr) => (tokens.insert tag old, pr, false)

variable (s : State)

def State.setProc (p : ℕ) (pr : Option Process) : State :=
  { s with procs := Function.update s.procs p pr }

/-- `SetupEndpointExecState` and `alloc_endpoint`: the pointer to the slot is set if there was no
error. -/
def setupEndpointExecState (p : ℕ) (pr : Process) (tag : EndpointTokenTag)
    (bytes : Token) (success : Bool) (old : EndpointTokenEntry) : State :=
  match s.sharedEndpoints.findIdx? (·.isNone) with
  | none => s.setProc p (some { pr with execState := some none })
  | some i =>
    let (tokens, pr, ok) := setupEndpointTokenEntry s.endpointTokenHash tag bytes success old pr
    State.setProc ⟨s.sharedEndpoints.set i (some ⟨tag, some p⟩), tokens, s.procs⟩ p
      (some { pr with execState := some (if ok then some i else none) })

/-- No state is the dereference of a null pointer. -/
def freeEndpoint (i : ℕ) : Option State :=
  match s.sharedEndpoints[i]? with
  | some (some e) => (s.endpointTokenHash.lookup e.tag).map fun entry =>
    let refCount := entry.refCount - 1
    { s with
      sharedEndpoints := s.sharedEndpoints.set i none
      endpointTokenHash := if refCount = 0 then s.endpointTokenHash.erase e.tag
        else s.endpointTokenHash.insert e.tag { entry with refCount := refCount } }
  | _ => none

/-- The slot of a process that runs. -/
def State.pointer (p : ℕ) : Option ℕ := (s.procs p).bind fun pr => pr.execState.join

/-- The end of `DestroyEndpointExecState`, or `AtAbort_EndpointExecState`; `pr` is the process after
it. -/
def State.leave (p : ℕ) (pr : Option Process) : Option State :=
  match s.pointer p with
  | some i => (freeEndpoint s i).map (·.setProc p pr)
  | none => some (s.setProc p pr)

def unsetEndpointSenderPid (i : ℕ) : State :=
  match s.sharedEndpoints[i]? with
  | some (some e) => { s with
    sharedEndpoints := s.sharedEndpoints.set i (some { e with senderPid := none }) }
  | _ => s

inductive Event where
  | start (p : ℕ)
  | create (p : ℕ) (tag : EndpointTokenTag) (bytes : Token) (success : Bool)
    (old : EndpointTokenEntry)
  /-- `DestroyEndpointExecState` has two sections -/
  | sent (p : ℕ)
  | destroy (p : ℕ)
  | abort (p : ℕ)
  /-- the transaction is aborted first -/
  | exit (p : ℕ)

def step : Event → Option State
  | .start p => if (s.procs p).isNone then some (s.setProc p (some ⟨none, none, 0⟩)) else none
  | .create p tag bytes success old =>
    (s.procs p).bind fun pr =>
      if pr.execState = none then some (setupEndpointExecState s p pr tag bytes success old)
        else none
  | .sent p => (s.pointer p).map (unsetEndpointSenderPid s)
  | .destroy p => if (s.pointer p).isSome then s.leave p
    ((s.procs p).map ({ · with execState := none })) else none
  | .abort p => s.leave p ((s.procs p).map ({ · with execState := none }))
  | .exit p => s.leave p none

/-- `get_session_id_from_token`; `none` is `InvalidEndpointSessionId`. -/
def getSessionIdFromToken (userID : ℕ) (token : Token) : Option ℕ :=
  (s.endpointTokenHash.entries.find? fun x => x.2.token = token ∧ userID = x.1.userID).map
  (·.1.sessionID)

/-- Where a creation finds a slot but neither an entry nor a token made in this session, the random
token is made. -/
def tokenMade : Event → Bool
  | .create p tag _ success _ => s.sharedEndpoints.all (·.isSome) ||
    ((s.endpointTokenHash.lookup tag).isSome ||
      (s.procs p).all (·.sessionId = some tag.sessionID) || success)
  | _ => true

/-! ## Invariant -/

/-- How many endpoints carry the session and user. -/
def carrying (slots : List (Option Endpoint)) (tag : EndpointTokenTag) : ℕ :=
  slots.countP fun slot => slot.any (·.tag = tag)

/-- There is an entry if some endpoint carries its tag, and its reference count is the number of
these. -/
def CountedFor (tag : EndpointTokenTag) : Prop :=
  (s.endpointTokenHash.lookup tag).map (·.refCount) =
    if carrying s.sharedEndpoints tag = 0 then none else some (carrying s.sharedEndpoints tag)

/-- The tables agree, and each slot that is not empty belongs to one process that runs. -/
structure InStep : Prop where
  owner : ∀ i e, s.sharedEndpoints[i]? = some (some e) →
    ∃ p, s.pointer p = some i ∧ (e.senderPid = none ∨ e.senderPid = some p)
  slot : ∀ p i, s.pointer p = some i → ∃ e, s.sharedEndpoints[i]? = some (some e)
  unique : ∀ p q i, s.pointer p = some i → s.pointer q = some i → p = q
  counted : ∀ tag, CountedFor s tag

variable {s s' : State} {p i : ℕ} {slots : List (Option Endpoint)} {x y : Option Endpoint}
  {pr : Option Process}

theorem inStep_init : InStep init where
  owner i e h := by simp [init, getElem?_replicate] at h
  slot p i h := by cases h
  unique p q i h := by cases h
  counted tag := by simp [CountedFor, init, carrying]

theorem carrying_set (hi : slots[i]? = some x) (tag : EndpointTokenTag) :
    carrying (slots.set i y) tag + (if x.any (·.tag = tag) then 1 else 0) =
      carrying slots tag + if y.any (·.tag = tag) then 1 else 0 := by
  obtain ⟨hlt, rfl⟩ := List.getElem?_eq_some_iff.1 hi
  have hle : (if slots[i].any (·.tag = tag) then 1 else 0) ≤ carrying slots tag := by
    split
    next h => exact countP_pos_iff.2 ⟨_, getElem_mem hlt, h⟩
    next => exact Nat.zero_le _
  rw [carrying, countP_set hlt]
  unfold carrying at hle ⊢
  omega

theorem pointer_setProc (s : State) (p q : ℕ) (pr : Option Process) :
    (s.setProc p pr).pointer q = if q = p then pr.bind (·.execState.join) else s.pointer q := by
  unfold State.pointer State.setProc
  by_cases h : q = p <;> simp [h]

theorem InStep.setProc (h : InStep s) (hp : s.pointer p = none)
    (hpr : pr.bind (·.execState.join) = none) : InStep (s.setProc p pr) := by
  have hsame : ∀ q, (s.setProc p pr).pointer q = s.pointer q := by
    intro q
    rw [pointer_setProc]
    split
    next heq => rw [heq, hp, hpr]
    next => rfl
  refine ⟨fun i e he => ?_, fun q i hq => h.slot q i (hsame q ▸ hq), fun q r i hq hr =>
    h.unique q r i (hsame q ▸ hq) (hsame r ▸ hr), h.counted⟩
  obtain ⟨q, hq, hsender⟩ := h.owner i e he
  exact ⟨q, hsame q ▸ hq, hsender⟩

section

variable (h : InStep s) (hi : s.sharedEndpoints[i]? = some x)
  (hslots : s'.sharedEndpoints = s.sharedEndpoints.set i y)
include h hi hslots

/-- **A slot and the pointer of its process change.** -/
theorem InStep.change (hself : s'.pointer p = y.map fun _ => i)
    (hne : ∀ q, q ≠ p → s'.pointer q = s.pointer q)
    (hother : ∀ q, s.pointer q = some i → q = p) (hold : ∀ j, s.pointer p = some j → j = i)
    (hsender : ∀ e, y = some e → e.senderPid = none ∨ e.senderPid = some p)
    (hcounted : ∀ tag, CountedFor s' tag) : InStep s' := by
  have hcases : ∀ q j, s'.pointer q = some j →
      (q = p ∧ j = i ∧ ∃ e, y = some e) ∨ (q ≠ p ∧ j ≠ i ∧ s.pointer q = some j) := by
    intro q j hq
    by_cases heq : q = p
    · rw [heq, hself, Option.map_eq_some_iff] at hq
      obtain ⟨e, he, rfl⟩ := hq
      exact .inl ⟨heq, rfl, e, he⟩
    · rw [hne q heq] at hq
      exact .inr ⟨heq, fun hj => heq (hother q (hj ▸ hq)), hq⟩
  refine ⟨fun j e he => ?_, fun q j hq => ?_, fun q r j hq hr => ?_, hcounted⟩
  · rw [hslots] at he
    rcases getElem?_set_cases he with ⟨rfl, rfl⟩ | ⟨hj, he⟩
    · exact ⟨p, hself, hsender e rfl⟩
    · obtain ⟨q, hq, hsender⟩ := h.owner j e he
      exact ⟨q, (hne q fun heq => hj (hold j (heq ▸ hq))).trans hq, hsender⟩
  · rw [hslots]
    rcases hcases q j hq with ⟨-, rfl, e, rfl⟩ | ⟨-, hj, hq⟩
    · exact ⟨e, getElem?_set_self (List.getElem?_eq_some_iff.1 hi).1⟩
    · obtain ⟨e, he⟩ := h.slot q j hq
      exact ⟨e, (getElem?_set_ne hj.symm).trans he⟩
  · rcases hcases q j hq with ⟨rfl, hj, -⟩ | ⟨-, hj, hq⟩ <;>
      rcases hcases r j hr with ⟨rfl, hj', -⟩ | ⟨-, hj', hr⟩
    · rfl
    · exact absurd hj hj'
    · exact absurd hj' hj
    · exact h.unique q r j hq hr

theorem InStep.recount (tag : EndpointTokenTag) (hx : ∀ e, x = some e → e.tag = tag)
    (hy : ∀ e, y = some e → e.tag = tag)
    (hrest : ∀ t, t ≠ tag → s'.endpointTokenHash.lookup t = s.endpointTokenHash.lookup t)
    (htag : CountedFor s' tag) (t : EndpointTokenTag) : CountedFor s' t := by
  rcases eq_or_ne t tag with rfl | hne
  · exact htag
  have hoff : ∀ {z : Option Endpoint}, (∀ e, z = some e → e.tag = tag) →
      z.any (·.tag = t) = false := by
    intro z hz
    cases z with
    | none => rfl
    | some e => simpa [hz e rfl] using hne.symm
  have hcount := carrying_set (y := y) hi t
  rw [hoff hx, hoff hy, ← hslots] at hcount
  have hold := h.counted t
  rwa [CountedFor, ← hrest t hne,
    ← show carrying s'.sharedEndpoints t = carrying s.sharedEndpoints t from hcount] at hold

end

/-! ## The events -/

theorem InStep.free (h : InStep s) (hp : s.pointer p = some i)
    (hpr : pr.bind (·.execState.join) = none) : ∃ s₁, freeEndpoint s i = some s₁ ∧
    InStep (s₁.setProc p pr) := by
  obtain ⟨e, he⟩ := h.slot p i hp
  have hcount := carrying_set (y := none) he e.tag
  simp only [Option.any_some, decide_true, if_true, Option.any_none, Bool.false_eq_true,
    if_false] at hcount
  have hentry := h.counted e.tag
  rw [CountedFor, if_neg (by omega)] at hentry
  obtain ⟨entry, hlookup, href⟩ := Option.map_eq_some_iff.1 hentry
  have href' : entry.refCount - 1 = carrying (s.sharedEndpoints.set i none) e.tag := by omega
  unfold freeEndpoint
  simp only [he, hlookup, Option.map_some, href']
  refine ⟨_, rfl, h.change he rfl (pointer_setProc _ p p pr |>.trans ?_)
    (fun q hq => ?_) ?_ ?_ nofun ?_⟩
  · rw [if_pos rfl, hpr]
    rfl
  · rw [pointer_setProc, if_neg hq]
    rfl
  · exact fun q hq => h.unique q p i hq hp
  · exact fun j hj => Option.some.inj (hj.symm.trans hp)
  refine h.recount he rfl e.tag (fun _ heq => by rw [Option.some.inj heq]) nofun
    (fun t ht => ?_) ?_
  · split
    · exact AList.lookup_erase_ne ht
    · exact AList.lookup_insert_ne ht
  dsimp only [CountedFor, State.setProc]
  split
  next h0 => rw [AList.lookup_erase, Option.map_none]
  next h0 => rw [AList.lookup_insert, Option.map_some]

theorem InStep.leave (h : InStep s) (p : ℕ) (hpr : pr.bind (·.execState.join) = none) :
    ∃ s₁, s.leave p pr = some s₁ ∧ InStep s₁ := by
  unfold State.leave
  split
  next i hp =>
    obtain ⟨s₁, hfree, h₁⟩ := h.free hp hpr
    exact ⟨_, by rw [hfree]; rfl, h₁⟩
  next hp => exact ⟨_, rfl, h.setProc hp hpr⟩

section

variable {tag : EndpointTokenTag} {bytes : Token} {success : Bool} {old : EndpointTokenEntry}
  {pr₀ : Process}

theorem setupEndpointTokenEntry_ok {tokens : TokenHash}
    (hok : (setupEndpointTokenEntry tokens tag bytes success old pr₀).2.2 = true) :
    ∃ entry, (setupEndpointTokenEntry tokens tag bytes success old pr₀).1 =
      tokens.insert tag entry ∧
      entry.refCount = ((tokens.lookup tag).map (·.refCount)).getD 0 + 1 := by
  revert hok
  unfold setupEndpointTokenEntry
  split
  next entry hentry => exact fun _ => ⟨_, rfl, by rw [hentry]; rfl⟩
  next hnone =>
    split
    next => exact fun _ => ⟨_, rfl, by rw [hnone]; rfl⟩
    next => exact nofun

theorem setupEndpointTokenEntry_made (tokens : TokenHash) :
    (setupEndpointTokenEntry tokens tag bytes success old pr₀).2.2 =
      ((tokens.lookup tag).isSome || pr₀.sessionId = some tag.sessionID || success) := by
  unfold setupEndpointTokenEntry createEndpointToken
  cases tokens.lookup tag with
  | some entry => rfl
  | none => by_cases h : pr₀.sessionId = some tag.sessionID <;> cases success <;> simp [h]

theorem InStep.create (h : InStep s) (hp : s.pointer p = none) (hproc : s.procs p = some pr₀)
    (hok : tokenMade s (.create p tag bytes success old)) :
    InStep (setupEndpointExecState s p pr₀ tag bytes success old) := by
  unfold setupEndpointExecState
  split
  next => exact h.setProc hp rfl
  next i hfind =>
    obtain ⟨hlt, hnone, -⟩ := findIdx?_eq_some_iff_getElem.1 hfind
    have hi : s.sharedEndpoints[i]? = some none := by
      rw [getElem?_eq_getElem hlt, Option.isNone_iff_eq_none.1 hnone]
    have hmade : (setupEndpointTokenEntry s.endpointTokenHash tag bytes success old pr₀).2.2 =
        true := by
      rw [tokenMade, hproc, Bool.or_eq_true, all_eq_true] at hok
      rw [setupEndpointTokenEntry_made]
      exact hok.resolve_left fun hall => Bool.false_ne_true (hall _ (mem_of_getElem? hi))
    obtain ⟨entry, htokens, href⟩ := setupEndpointTokenEntry_ok hmade
    generalize setupEndpointTokenEntry s.endpointTokenHash tag bytes success old pr₀ =
      r at hmade htokens
    obtain ⟨tokens, pr, ok⟩ := r
    obtain rfl : ok = true := hmade
    obtain rfl : tokens = s.endpointTokenHash.insert tag entry := htokens
    have hcount := carrying_set (y := some ⟨tag, some p⟩) hi tag
    simp only [Option.any_some, decide_true, if_true, Option.any_none, Bool.false_eq_true,
      if_false] at hcount
    rw [h.counted tag] at href
    refine h.change hi rfl ((pointer_setProc _ p p _).trans (if_pos rfl)) (fun q hq => ?_)
      (fun q hq => ?_) (fun j hj => ?_) (fun e he => .inr ?_)
      (h.recount hi rfl tag nofun (fun e he => ?_) (fun t ht => ?_) ?_)
    · rw [pointer_setProc, if_neg hq]
      rfl
    · obtain ⟨e, he⟩ := h.slot q i hq
      rw [hi] at he
      cases he
    · rw [hp] at hj
      cases hj
    · rw [← Option.some.inj he]
    · rw [← Option.some.inj he]
    · exact AList.lookup_insert_ne ht
    · dsimp only [CountedFor, State.setProc]
      rw [AList.lookup_insert, Option.map_some, if_neg (by omega), href]
      split <;> simp <;> omega

end

theorem InStep.sent (h : InStep s) (hp : s.pointer p = some i) :
    InStep (unsetEndpointSenderPid s i) := by
  obtain ⟨e, he⟩ := h.slot p i hp
  unfold unsetEndpointSenderPid
  rw [he]
  refine h.change he rfl hp (fun _ _ => rfl) (fun q hq => h.unique q p i hq hp)
    (fun j hj => Option.some.inj (hj.symm.trans hp)) (fun e' he' => .inl ?_) fun t => ?_
  · rw [← Option.some.inj he']
  have hcount : carrying (s.sharedEndpoints.set i (some { e with senderPid := none })) t =
    carrying s.sharedEndpoints t :=
    Nat.add_right_cancel (carrying_set he t)
  rw [CountedFor, hcount]
  exact h.counted t

theorem step_inStep {e : Event} (h : InStep s) (hok : tokenMade s e) (hstep : step s e = some s') :
    InStep s' := by
  have hleave : ∀ {p pr}, pr.bind (·.execState.join) = none → s.leave p pr = some s' →
      InStep s' := by
    intro p pr hpr hs'
    obtain ⟨s₁, hs₁, h₁⟩ := h.leave p hpr
    exact Option.some.inj (hs₁.symm.trans hs') ▸ h₁
  have hend : ∀ p, ((s.procs p).map ({ · with execState := none })).bind (·.execState.join) =
    none := fun p => by
    cases s.procs p <;> rfl
  cases e with
  | start p =>
    obtain ⟨hnone, rfl⟩ : s.procs p = none ∧ s.setProc p (some ⟨none, none, 0⟩) = s' := by
      simpa [step] using hstep
    exact h.setProc (by rw [State.pointer, hnone]; rfl) rfl
  | create p tag bytes success old =>
    obtain ⟨pr₀, hproc, hnone, rfl⟩ : ∃ pr₀, s.procs p = some pr₀ ∧ pr₀.execState = none ∧
        setupEndpointExecState s p pr₀ tag bytes success old = s' := by
      simpa [step, Option.bind_eq_some_iff] using hstep
    exact h.create (by rw [State.pointer, hproc, Option.bind_some, hnone]; rfl) hproc hok
  | sent p =>
    obtain ⟨i, hp, rfl⟩ := Option.map_eq_some_iff.1 hstep
    exact h.sent hp
  | destroy p => exact hleave (hend p) (Option.ite_none_right_eq_some.1 hstep).2
  | abort p => exact hleave (hend p) hstep
  | exit p => exact hleave (rfl : (none : Option Process).bind _ = none) hstep

/-- **Endpoints and tokens stay in step** in every run in which no creation fails to make its token.
The tokens that are accepted for a user are those of the entries of that user, and a process can
always end. -/
theorem endpoints_inStep {events : List Event}
    (hok : EventsOk step (fun s e => tokenMade s e) events init)
    (h : runSteps step events init = some s) :
    InStep s ∧ (∀ userID token, (getSessionIdFromToken s userID token).isSome = true ↔
      ∃ sid entry, s.endpointTokenHash.lookup ⟨sid, userID⟩ = some entry ∧ entry.token = token) ∧
    (∀ userID token sid, getSessionIdFromToken s userID token = some sid →
      ∃ entry, s.endpointTokenHash.lookup ⟨sid, userID⟩ = some entry ∧ entry.token = token) ∧
    ∀ p, (s.leave p none).isSome = true := by
  have hinv : InStep s := runSteps_invariant_of_ok step_inStep events hok inStep_init h
  have hfound : ∀ userID token sid, getSessionIdFromToken s userID token = some sid →
      ∃ entry, s.endpointTokenHash.lookup ⟨sid, userID⟩ = some entry ∧ entry.token = token := by
    intro userID token sid hget
    obtain ⟨⟨⟨sid', user⟩, entry⟩, hfind, rfl⟩ := Option.map_eq_some_iff.1 hget
    obtain ⟨htoken, rfl⟩ : entry.token = token ∧ userID = user := by simpa using find?_some hfind
    exact ⟨entry, AList.mem_lookup_iff.2 (mem_of_find?_eq_some hfind), htoken⟩
  refine ⟨hinv, fun userID token => ⟨fun hsome => ?_, ?_⟩, hfound, fun p => ?_⟩
  · obtain ⟨sid, hget⟩ := Option.isSome_iff_exists.1 hsome
    exact ⟨sid, hfound userID token sid hget⟩
  · rintro ⟨sid, entry, hentry, htoken⟩
    rw [getSessionIdFromToken, Option.isSome_map, find?_isSome]
    exact ⟨⟨_, entry⟩, AList.mem_lookup_iff.1 hentry, by simpa using htoken⟩
  · obtain ⟨s₁, hs₁, -⟩ := hinv.leave p (rfl : (none : Option Process).bind _ = none)
    rw [hs₁]
    rfl

/-- Two processes of a session share a token, and the one that made it ends first. -/
def sharedToken : List Event :=
  [.start 7, .create 7 ⟨1, 10⟩ 5 true ⟨0, 0⟩, .start 8, .create 8 ⟨1, 10⟩ 6 false ⟨0, 0⟩,
  .sent 7, .destroy 7]

theorem endpoints_inStep_shared : ∃ s, runSteps step sharedToken init = some s ∧
    s.sharedEndpoints.take 3 = [none, some ⟨⟨1, 10⟩, some 8⟩, none] ∧
    getSessionIdFromToken s 10 5 = some 1 ∧ InStep s :=
  have hok : EventsOk step (fun s e => tokenMade s e) sharedToken init := by decide +kernel
  ⟨_, rfl, by decide +kernel, by decide +kernel, (endpoints_inStep hok rfl).1⟩

/-- A creation without a random token is cleaned up and its process exits: the slot stays, with an
entry whose count is what was in memory. -/
theorem endpoint_left_behind : ∃ s,
    runSteps step [.start 7, .create 7 ⟨1, 10⟩ 5 false ⟨0, 0⟩, .abort 7, .exit 7] init = some s ∧
      s.sharedEndpoints.head? = some (some ⟨⟨1, 10⟩, some 7⟩) ∧ (s.procs 7).isNone = true ∧
      s.endpointTokenHash.lookup ⟨1, 10⟩ = some ⟨0, 0⟩ ∧ carrying s.sharedEndpoints ⟨1, 10⟩ = 1 :=
  ⟨_, rfl, by decide +kernel, by decide +kernel, by decide +kernel, by decide +kernel⟩

end PolemoDB.Cdb.Endpoints
