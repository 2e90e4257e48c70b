import PolemoDB.Motion.ProxyFlow

/-!
# The clients of the interconnect proxy (`ic_proxy_client.c`)

The proxy has a client for each connection of a backend, and finds it by a key. Statements of one
query can have the same key, so several connections, the generations, use one key one after the
other. The packets for a key can come before its client is there, and the client of a generation can
come while the one before it is not yet closed:

* `register` / `unregister`: a new client replaces a placeholder and takes the packets that it
  cached, or waits as the successor of the client that is still registered; a client that is closed
  leaves the packets that it cached to its successor or to a placeholder.
* `onP2cData`: a packet for a client is written to the backend, cached, or acted on.
* `shutdownC2p`, `shutdownP2c`, `maybeClose`: the two directions are shut down one by one, and the
  client is closed when both are and nothing is being sent.

Generations are numbers. The state is that of one key: its entry in the client table, all its
clients, and where the arrivals are. The packets of a generation are its DATA packets and a BYE. The
callbacks of libuv are events: writes complete in order, a shutdown after the writes before it, a
close once for each request. Of the direction from the backend only its end is modelled; a client
that was paused and resumes can read it again.
-/

namespace PolemoDB.Motion

open PolemoDB.Lib

universe u

/-! ## Clients -/

/-- A packet for a client. -/
inductive P2cPkt (α : Type u) where
  | data (a : α)
  | bye
  deriving DecidableEq, Repr

/-- `ICProxyClient`, with what libuv holds for it. -/
structure ProxyClient (α : Type u) where
  registered : Bool
  c2pShutting : Bool
  c2pShutted : Bool
  p2cShutting : Bool
  p2cShutted : Bool
  closing : Bool
  closed : Bool
  /-- `ic_proxy_client_read_data` was called -/
  reading : Bool
  sending : ℕ
  unackRecvPkt : ℤ
  successor : Option ℕ
  pkts : List (P2cPkt α)
  /-- DATA that is being written to the backend -/
  writing : List α
  /-- DATA that was written to the backend -/
  written : List α
  /-- DATA_ACK messages that are being sent -/
  acking : ℕ
  /-- calls of `uv_close` whose callback was not called yet -/
  closeReqs : ℕ
  deriving DecidableEq, Repr

section Client

variable {α : Type u}

/-- `ic_proxy_client_new`. -/
def ProxyClient.new : ProxyClient α where
  registered := false
  c2pShutting := false
  c2pShutted := false
  p2cShutting := false
  p2cShutted := false
  closing := false
  closed := false
  reading := false
  sending := 0
  unackRecvPkt := 0
  successor := none
  pkts := []
  writing := []
  written := []
  acking := 0
  closeReqs := 0

/-- `ic_proxy_client_cache_p2c_pkts`. -/
def ProxyClient.cacheP2cPkts (c : ProxyClient α) (pkts : List (P2cPkt α)) : ProxyClient α :=
  { c with pkts := c.pkts ++ pkts }

/-- `ic_proxy_router_write` of a DATA packet. -/
def ProxyClient.write (c : ProxyClient α) (a : α) : ProxyClient α :=
  { c with sending := c.sending + 1, writing := c.writing ++ [a] }

/-- `ic_proxy_client_on_p2c_data` for a client that is not shutting down. -/
def ProxyClient.onP2cDataOpen (c : ProxyClient α) : P2cPkt α → ProxyClient α
  | .data a => c.write a
  | .bye => { c with p2cShutting := true }

/-- The loop of `ic_proxy_client_handle_p2c_cache`. -/
def ProxyClient.consume : List (P2cPkt α) → ProxyClient α → ProxyClient α
  | [], c => { c with pkts := [] }
  | p :: ps, c => if c.p2cShutting then { c with pkts := p :: ps } else consume ps
    (c.onP2cDataOpen p)

variable (c : ProxyClient α)

/-- `ic_proxy_client_handle_p2c_cache`. -/
def ProxyClient.handleP2cCache : ProxyClient α := c.consume c.pkts

/-- `ic_proxy_client_maybe_send_ack_message`. -/
def ProxyClient.maybeSendAckMessage : ProxyClient α :=
  if c.unackRecvPkt ≥ IC_PROXY_ACK_INTERVAL then
    { c with
      sending := c.sending + 1
      unackRecvPkt := c.unackRecvPkt - IC_PROXY_ACK_INTERVAL
      acking := c.acking + 1 }
  else c

/-- `ic_proxy_client_on_sent_p2c_data`, when `a` was written and `rest` is still to be. -/
def ProxyClient.onSentP2cData (a : α) (rest : List α) : ProxyClient α :=
  ProxyClient.maybeSendAckMessage { c with
    writing := rest
    written := c.written ++ [a]
    sending := c.sending - 1
    unackRecvPkt := c.unackRecvPkt + 1 }

end Client

/-! ## The client table -/

/-- The entry of the key. -/
inductive ProxyEntry (α : Type u) where
  /-- a placeholder, with the packets that it cached -/
  | placeholder (pkts : List (P2cPkt α))
  | client (g : ℕ)
  deriving DecidableEq, Repr

/-- The errors that should never happen. -/
inductive ProxyError where
  | alreadyRegistered
  | unregisteredClientFound
  | alreadyHasASuccessor
  | doubleClose
  deriving DecidableEq, Repr

/-- The proxy, as far as one key is concerned. -/
structure ProxyState (α : Type u) where
  entry : Option (ProxyEntry α)
  clients : ℕ → ProxyClient α
  /-- how many clients have sent their HELLO ACK -/
  started : ℕ
  /-- the generation whose packets arrive, and its DATA that has not -/
  gen : ℕ
  rest : List α
  error : Option ProxyError

section Table

variable {α : Type u} (s : ProxyState α)

/-- Before the first connection, where `data g` is the DATA for the generation `g`. -/
def ProxyState.start (data : ℕ → List α) : ProxyState α where
  entry := none
  clients := fun _ => .new
  started := 0
  gen := 0
  rest := data 0
  error := none

/-- A client changes. -/
def ProxyState.set (g : ℕ) (c : ProxyClient α) : ProxyState α :=
  { s with clients := Function.update s.clients g c }

/-- `elog` of one of the errors. -/
def ProxyState.fail (e : ProxyError) : ProxyState α := { s with error := some e }

/-- `ic_proxy_client_register`. -/
def ProxyState.register (g : ℕ) : ProxyState α :=
  let c := s.clients g
  if c.registered then s.fail .alreadyRegistered
  else match s.entry with
    | none => { s.set g { c with registered := true } with entry := some (.client g) }
    | some (.placeholder pkts) =>
      { s.set g { c.cacheP2cPkts pkts with registered := true } with entry := some (.client g) }
    | some (.client old) =>
      if old = g then s.fail .unregisteredClientFound
      else if (s.clients old).successor.isSome then s.fail .alreadyHasASuccessor
      else s.set old { s.clients old with successor := some g }

/-- `ic_proxy_client_maybe_start_read_data`. -/
def ProxyState.maybeStartReadData (g : ℕ) : ProxyState α :=
  let c := s.clients g
  if c.registered then s.set g { c with reading := true }.handleP2cCache else s

/-- `ic_proxy_client_unregister`. -/
def ProxyState.unregister (g : ℕ) : ProxyState α :=
  let c := s.clients g
  if c.registered then
    let s :=
      { s.set g { c with registered := false, successor := none, pkts := [] } with entry := none }
    match c.successor with
    | some next =>
      ((s.set next ((s.clients next).cacheP2cPkts c.pkts)).register next).maybeStartReadData next
    | none => if c.pkts.isEmpty then s else { s with entry := some (.placeholder c.pkts) }
  else s

/-- `ic_proxy_client_close`. -/
def ProxyState.close (g : ℕ) : ProxyState α :=
  let c := s.clients g
  if c.closing then s
  else
    let s := (s.set g { c with closing := true }).unregister g
    s.set g { s.clients g with closeReqs := (s.clients g).closeReqs + 1 }

/-- `ic_proxy_client_maybe_close`. -/
def ProxyState.maybeClose (g : ℕ) : ProxyState α :=
  let c := s.clients g
  if c.sending = 0 ∧ c.c2pShutted = true ∧ c.p2cShutted = true then s.close g else s

/-- `ic_proxy_client_shutdown_p2c`. -/
def ProxyState.shutdownP2c (g : ℕ) : ProxyState α :=
  let c := s.clients g
  if c.p2cShutting then s.maybeClose g else s.set g { c with p2cShutting := true }

/-- `ic_proxy_client_shutdown_c2p`. -/
def ProxyState.shutdownC2p (g : ℕ) : ProxyState α :=
  let c := s.clients g
  if c.c2pShutting then s.maybeClose g
  else if c.registered then s.set g { c with c2pShutting := true, sending := c.sending + 1 }
  else (s.set g { c with c2pShutting := true, c2pShutted := true }).shutdownP2c g

/-- `ic_proxy_client_on_p2c_data`, for a client that is not a placeholder; a BYE goes to
`ic_proxy_client_on_p2c_message`. -/
def ProxyState.onP2cData (g : ℕ) (pkt : P2cPkt α) : ProxyState α :=
  let c := s.clients g
  match pkt with
  | .data a => s.set g (if c.p2cShutting then c.cacheP2cPkts [.data a] else c.write a)
  | .bye => s.shutdownP2c g

/-- `ic_proxy_router_route` to the key, with `ic_proxy_client_blessed_lookup`. -/
def ProxyState.route (pkt : P2cPkt α) : ProxyState α :=
  match s.entry with
  | none => { s with entry := some (.placeholder [pkt]) }
  | some (.placeholder pkts) => { s with entry := some (.placeholder (pkts ++ [pkt])) }
  | some (.client g) => s.onP2cData g pkt

/-! ## Events -/

/-- What happens next. -/
inductive ClientEvent where
  /-- the next packet arrives -/
  | arrive
  /-- `ic_proxy_client_on_sent_hello_ack` for the next generation -/
  | hello
  /-- the first of the writes to the backend completes -/
  | sentData (g : ℕ)
  /-- `ic_proxy_client_on_sent_c2p_resume` -/
  | sentAck (g : ℕ)
  /-- the end of the stream from the backend -/
  | eof (g : ℕ)
  /-- `ic_proxy_client_on_sent_c2p_bye` -/
  | sentBye (g : ℕ)
  /-- `ic_proxy_client_on_shutdown_p2c` -/
  | onShutdown (g : ℕ)
  /-- `ic_proxy_client_on_close` -/
  | onClose (g : ℕ)
  deriving DecidableEq, Repr

/-- One event; there is none after an error. -/
def clientStep (data : ℕ → List α) (s : ProxyState α) (e : ClientEvent) : Option (ProxyState α) :=
  if s.error.isSome then none
  else match e with
    | .arrive =>
      match s.rest with
      | a :: rest => some (({ s with rest := rest } : ProxyState α).route (.data a))
      | [] => some (({ s with gen := s.gen + 1, rest := data (s.gen + 1) } : ProxyState α).route
        .bye)
    | .hello =>
      some ((({ s with started := s.started + 1 } : ProxyState α).register
        s.started).maybeStartReadData s.started)
    | .sentData g =>
      match (s.clients g).writing with
      | a :: rest => some (s.set g ((s.clients g).onSentP2cData a rest))
      | [] => none
    | .sentAck g =>
      let c := s.clients g
      if 0 < c.acking then
        some ((s.set g { c with acking := c.acking - 1, sending := c.sending - 1 }).maybeClose g)
      else none
    | .eof g =>
      let c := s.clients g
      if c.reading = true ∧ c.closing = false then some (s.shutdownC2p g) else none
    | .sentBye g =>
      let c := s.clients g
      if c.c2pShutting = true ∧ c.c2pShutted = false then
        some ((s.set g { c with c2pShutted := true, sending := c.sending - 1 }).maybeClose g)
      else none
    | .onShutdown g =>
      let c := s.clients g
      if c.p2cShutting = true ∧ c.p2cShutted = false ∧ c.writing.isEmpty = true then
        some ((s.set g { c with p2cShutted := true }).maybeClose g)
      else none
    | .onClose g =>
      let c := s.clients g
      if 0 < c.closeReqs then
        some (if c.closed then s.fail .doubleClose
          else s.set g { c with closed := true, closeReqs := c.closeReqs - 1 })
      else none

end Table

end PolemoDB.Motion
