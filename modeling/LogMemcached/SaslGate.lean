import LogMemcached.NetworkSteps
import LogMemcached.View

/-!
# The SASL gate

With `-S` every connection starts in the binary protocol, and `dispatch_bin_command` lets nothing but
`version` and the SASL commands through before `sasl_server_start` or `sasl_server_step` has returned
`SASL_OK`.  A session is a connection with the store and the item of a SASL exchange, whose data go
through the log as well.  On a UDP socket `try_read_command` chooses the protocol again for every
datagram, and an ASCII line never meets the check.
-/

namespace LogMemcached

open ByteMem Tiling Fallible Transition

/-! ## What a turn runs -/

/-- The functions a request is handed to; `binary` stands for those of `complete_nread_binary` that
serve items, statistics or `flush`. -/
inductive Handler
  | error
  | version
  | binListSaslMechs
  | processBinSaslAuth
  | processBinCompleteSaslAuth
  | noop
  | quit
  | binary (substate : BinSubstate)
  | processCommand (text : List UInt8)
  | completeNreadAscii
deriving DecidableEq, Repr

/-- The functions that may run before the client has authenticated. -/
def Handler.isOpen : Handler → Bool
  | error | version | binListSaslMechs | processBinSaslAuth | processBinCompleteSaslAuth => true
  | _ => false

namespace Connection

/-- `try_read_udp` on a datagram. -/
def tryReadUdp (c : Connection) (reads : List (Bool × ReadAnswer)) : Connection × TryRead :=
  match (reads.head?.map (·.2)).getD .again with
  | .data bytes =>
      let got := readUpTo c.rsize bytes
      if got.length > 8 then
        let c := c.store 0 got
        if got.getD 4 0 ≠ 0 ∨ got.getD 5 0 ≠ 1 then (c.outString, .noDataReceived)
        else
          ({ c with
            rbuf := fun x => if 0 ≤ x ∧ x < got.length - 8 then c.rbuf (x + 8) else c.rbuf x
            rbytes := got.length - 8
            rcurr := 0 }, .dataReceived)
      else (c.store 0 got, .noDataReceived)
  | _ => (c, .noDataReceived)

/-- One turn of `drive_machine` on a socket of the given kind. -/
def driveOn (c : Connection) (transport : Transport) (env : NetSettings) (i : Input) : Connection :=
  if transport = .udp then
    match c.state with
    | .read =>
        match c.tryReadUdp i.reads with
        | (c, .dataReceived) => { c with state := .parseCmd }
        | (c, _) => { c with state := .waiting }
    | .parseCmd =>
        -- the protocol is chosen anew
        let (c, done) := { c with protocol := .negotiating }.tryReadCommand env i
        if done then c else { c with state := .waiting }
    | .newCmd =>
        -- `conn_shrink` leaves the buffer of a UDP socket alone
        if i.yields then c.drive env i
        else { c with substate := .noState, state := if c.rbytes > 0 then .parseCmd else .waiting }
    | .write | .mwrite =>
        if i.transmit = .hardError ∧ i.event then { c with state := .read } else c.drive env i
    | .closing => { c with state := .read }
    | _ => c.drive env i
  else c.drive env i

/-- `UDP_READ_BUFFER_SIZE`. -/
def udpReadBufferSize : ℤ := 65536

/-- `conn_new` on a socket of the given kind, with the `conn` its descriptor had before. -/
def connNewOn (transport : Transport) (env : NetSettings) (old : Option Connection) : Connection :=
  let c : Connection := match old with
    | none => { connNew env with rsize := if transport = .udp then udpReadBufferSize else dataBufferSize }
    | some c => c.connReuse env
  { c with state := if transport = .udp then .read else .newCmd }

/-- The protocol `try_read_command` goes by. -/
def chosen (c : Connection) (transport : Transport) : Connection :=
  if transport = .udp then { c with protocol := .negotiating }.negotiate else c.negotiate

/-- What `dispatch_bin_command` hands a request to; a command with a key only starts to read it. -/
def dispatches (c : Connection) (env : NetSettings) : Option Handler :=
  if env.sasl && !c.isAuthenticated then some .error
  else if c.header.keylen > keyMaxLength then some .error
  else
    match c.cmd with
    | .version => some (if c.header.bare then .version else .error)
    | .noop => some (if c.header.bare then .noop else .error)
    | .quit => some (if c.header.bare then .quit else .error)
    | .saslListMechs => some (if c.header.bare then .binListSaslMechs else .error)
    | .unknown | .nread => some .error
    | cmd => if (c.header.readsKey cmd).isSome then none else some .error

/-- The function that one turn of `drive_machine` runs, if it gets to one. -/
def handler (c : Connection) (transport : Transport) (env : NetSettings) (i : Input) :
    Option Handler :=
  match c.state with
  | .parseCmd =>
      let c := c.chosen transport
      if c.protocol = .binary then
        if c.rbytes < sizeofBinaryHeader then none
        else
          let header := binaryHeaderAt c.rbuf c.rcurr
          if header.magic ≠ 0x80 then none
          else if !i.msghdr then some .error
          else { c with header, cmd := header.command.1 }.dispatches env
      else (c.pending.findIdx? (· == 10)).map fun n => .processCommand (c.lineText n)
  | .nread =>
      if c.rlbytes = 0 then
        if c.protocol = .binary then
          match c.substate with
          | .readingSaslAuth => some .processBinSaslAuth
          | .readingSaslAuthData => some .processBinCompleteSaslAuth
          | .noState => none
          | substate => some (.binary substate)
        else some .completeNreadAscii
      else none
  | _ => none

/-- `binary_get_key`. -/
def binaryGetKey (c : Connection) : Key :=
  (List.range c.header.keylen).map fun k : ℕ => c.rbuf (c.rcurr - c.header.keylen + k)

end Connection

/-! ## Sessions -/

/-- A connection, the store, and `c->item` during a SASL exchange.  `passed` and `ran` are history:
whether the SASL library has returned `SASL_OK`, and the functions run. -/
structure Session where
  conn : Connection
  store : Store
  item : Option ℕ
  passed : Bool
  ran : List Handler

/-- A turn of `drive_machine`, with what a function that serves items does to the store if one runs,
or `conn_close_idle`. -/
inductive SessionAction
  | turn (i : Input) (serve : Store → Store)
  | idle

namespace Session

def start (conn : Connection) (store : Store) : Session := ⟨conn, store, none, false, []⟩

/-- `item_alloc` of `process_bin_sasl_auth`; `none` when the input has another answer for it. -/
def allocate (st : Session) (env : NetSettings) (i : Input) : Option (Store × Option ℕ) :=
  let c := st.conn
  if env.sasl ∧ c.header.keylen ≤ maxSaslMechLen then
    match st.store.doItemAlloc c.binaryGetKey 0 0 c.header.appendVlen with
    | .ok (s, it, _) =>
        if it.isSome = Connection.allocates env i c.header.keylen 0 c.header.appendVlen then
          some (s, it)
        else none
    | .error _ => none
  else some (st.store, none)

/-- The release of `c->item`. -/
def release (st : Session) : Option Store :=
  match st.item with
  | none => some st.store
  | some id => (st.store.doItemRemove id).toOption

/-- The bytes that a turn writes to the data area of `c->item`. -/
def receive (st : Session) (i : Input) : Store :=
  match st.item, st.conn.ritem with
  | some id, .item pos _ =>
      let m := st.store.log.mem
      st.store.setMem
        (write m (itemData m (st.store.itemOf id) + pos.toNat) (st.conn.arriving i))
  | _, _ => st.store

/-- One step; `none` when an assertion fails. -/
def next (transport : Transport) (env : NetSettings) (st : Session) :
    SessionAction → Option Session
  | .idle => some { st with conn := st.conn.handle env .idle }
  | .turn i serve =>
      let conn := st.conn.driveOn transport env i
      match st.conn.handler transport env i with
      | some .processBinSaslAuth =>
          (st.allocate env i).map fun (store, item) =>
            { st with conn, store, item, ran := st.ran ++ [.processBinSaslAuth] }
      | some .processBinCompleteSaslAuth =>
          (st.item.elim (some st.store) fun id => (st.store.doItemUnlink id).toOption).map fun store =>
            { st with
              conn, store
              passed := st.passed || i.sasl = .ok
              ran := st.ran ++ [.processBinCompleteSaslAuth] }
      | some handler =>
          some { st with
            conn
            store := if handler.isOpen then st.store else serve st.store
            ran := st.ran ++ [handler] }
      | none =>
          match st.conn.state with
          | .nread => some { st with conn, store := if st.conn.rlbytes > 0 then st.receive i else st.store }
          | .newCmd =>
              if i.yields then some { st with conn }
              else st.release.map fun store => { st with conn, store, item := none }
          | .closing => st.release.map fun store => { st with conn, store, item := none }
          | _ => some { st with conn }

end Session

/-- The items, the counters and the settings of a store are those of another. -/
structure SameItems (s s' : Store) : Prop where
  settings : s'.settings = s.settings
  clock : s'.clock = s.clock
  casId : s'.casId = s.casId
  stats : s'.stats = s.stats
  table : s'.table = s.table
  items : ∀ id ∈ s.table, s'.metas id = s.metas id ∧ s'.recAt id = s.recAt id ∧
    itemGetCas s'.log.mem (s'.itemOf id) = itemGetCas s.log.mem (s.itemOf id)

/-- Before `SASL_OK`, only the open functions have run, and no item, counter or setting has
changed. -/
def Session.Gated (store : Store) (st : Session) : Prop :=
  st.passed = false → (∀ handler ∈ st.ran, handler.isOpen = true) ∧ SameItems store st.store

/-- The condition on a step: the socket is not a UDP socket, and the data of a SASL exchange fit
into the log. -/
def Session.Fits (transport : Transport) (env : NetSettings) (st : Session) : SessionAction → Prop
  | .turn i _ =>
      transport ≠ .udp ∧ (st.conn.handler transport env i = some .processBinSaslAuth →
        AllocOk st.store st.conn.binaryGetKey 0 st.conn.header.appendVlen)
  | .idle => transport ≠ .udp

def Session.GoodStep (transport : Transport) (env : NetSettings) (st : Session) (a : SessionAction)
    (st' : Session) : Prop :=
  st.Fits transport env a ∧ st.next transport env a = some st'

/-! ## The connection before authentication -/

namespace Connection

variable {c c' : Connection} {env : NetSettings} {i : Input} {n : ℤ}

def SameLogin (c c' : Connection) : Prop :=
  c'.protocol = c.protocol ∧ c'.authenticated = c.authenticated

theorem SameLogin.trans {c'' : Connection} (h : SameLogin c c') (h' : SameLogin c' c'') :
    SameLogin c c'' :=
  ⟨h'.1.trans h.1, h'.2.trans h.2⟩

theorem outString_login (c : Connection) : SameLogin c c.outString := by
  unfold outString
  split_ifs <;> exact ⟨rfl, rfl⟩

theorem writeBinError_login (c : Connection) (n : ℤ) : SameLogin c (c.writeBinError n) := by
  unfold writeBinError
  split_ifs <;> exact ⟨rfl, rfl⟩

theorem writeBinResponse_login (c : Connection) : SameLogin c c.writeBinResponse := by
  unfold writeBinResponse
  split_ifs <;> exact ⟨rfl, rfl⟩

theorem outOfMemory_login (c : Connection) : SameLogin c c.outOfMemory := by
  unfold outOfMemory
  split_ifs
  · exact c.writeBinError_login 0
  · exact c.outString_login

theorem repack_login (c : Connection) : SameLogin c c.repack := by
  unfold repack
  split_ifs <;> exact ⟨rfl, rfl⟩

structure Chats (c c' : Connection) : Prop where
  login : SameLogin c c'
  state : c.state ≠ .nread → c'.state ≠ .nread
  resumes : c.writeAndGo ≠ .nread → c'.writeAndGo ≠ .nread

theorem Chats.refl (c : Connection) : Chats c c := ⟨⟨rfl, rfl⟩, id, id⟩

theorem Chats.trans {c'' : Connection} (h : Chats c c') (h' : Chats c' c'') : Chats c c'' :=
  ⟨h.login.trans h'.login, h'.state ∘ h.state, h'.resumes ∘ h.resumes⟩

theorem repack_chats (c : Connection) : Chats c c.repack :=
  ⟨c.repack_login, by rw [repack_state]; exact id, by rw [repack_writeAndGo]; exact id⟩

theorem connShrink_chats (c : Connection) (memory : Bool) : Chats c (c.connShrink memory) := by
  have packed := c.repack_chats
  unfold connShrink
  dsimp only
  split_ifs
  · exact ⟨packed.login, packed.state, packed.resumes⟩
  · exact packed
  · exact .refl c

theorem resetCmdHandler_chats (c : Connection) (memory : Bool) :
    Chats c (c.resetCmdHandler memory) := by
  have shrunk := connShrink_chats { c with substate := .noState } memory
  unfold resetCmdHandler
  dsimp only
  split_ifs
  · exact ⟨shrunk.login, fun _ => nofun, shrunk.resumes⟩
  · exact ⟨shrunk.login, fun _ => nofun, shrunk.resumes⟩

theorem readLoop_chats (reads : List (Bool × ReadAnswer)) (allocs : ℕ) (gotdata : TryRead)
    (c : Connection) : Chats c (readLoop reads allocs gotdata c).1 := by
  induction reads generalizing allocs gotdata c with
  | nil => exact .refl c
  | cons turn rest ih =>
    obtain ⟨memory, answer⟩ := turn
    unfold readLoop
    split_ifs with full failed
    · exact .refl c
    · have answers := outOfMemory_answers { c with rbytes := 0 }
      exact ⟨outOfMemory_login { c with rbytes := 0 }, fun _ => answers.state, fun _ => (by simp)⟩
    all_goals
      cases answer with
      | again => exact ⟨⟨rfl, rfl⟩, id, id⟩
      | error => exact ⟨⟨rfl, rfl⟩, id, id⟩
      | data bytes =>
        dsimp only
        split_ifs
        · exact ⟨⟨rfl, rfl⟩, id, id⟩
        · refine Chats.trans ?_ (ih _ _ _)
          exact ⟨⟨rfl, rfl⟩, id, id⟩
        · exact ⟨⟨rfl, rfl⟩, id, id⟩

theorem readNetwork_chats (c : Connection) (reads : List (Bool × ReadAnswer)) :
    Chats c (c.readNetwork reads) := by
  have read : Chats c (c.tryReadNetwork reads).1 :=
    c.repack_chats.trans (readLoop_chats reads 0 .noDataReceived c.repack)
  unfold readNetwork
  generalize c.tryReadNetwork reads = r at read
  obtain ⟨d, result⟩ := r
  cases result with
  | memoryError => exact read
  | _ => exact ⟨read.login, fun _ => nofun, read.resumes⟩

theorem noBytes_chats (c : Connection) (i : Input) (answer : ReadAnswer) :
    Chats c (c.noBytes i answer) := by
  unfold noBytes
  split_ifs
  · exact .refl c
  · exact ⟨⟨rfl, rfl⟩, fun _ => nofun, id⟩

theorem swallow_chats (c : Connection) (i : Input) : Chats c (c.swallow i) := by
  unfold swallow
  by_cases done : c.sbytes = 0
  · rw [if_pos done]
    exact ⟨⟨rfl, rfl⟩, fun _ => nofun, id⟩
  rw [if_neg done]
  by_cases some : c.rbytes > 0
  · rw [if_pos some]
    exact ⟨⟨rfl, rfl⟩, id, id⟩
  rw [if_neg some]
  cases firstRead i with
  | data bytes =>
    dsimp only
    generalize readUpTo _ bytes = got
    split_ifs
    · exact ⟨⟨rfl, rfl⟩, fun _ => nofun, id⟩
    · exact ⟨⟨rfl, rfl⟩, id, id⟩
  | again | error => exact c.noBytes_chats i _

theorem binReadKey_login (c : Connection) (next : BinSubstate) (extra : ℕ) (memory : Bool) :
    SameLogin c (c.binReadKey next extra memory) := by
  unfold binReadKey
  dsimp only
  split_ifs
  · exact ⟨rfl, rfl⟩
  · exact repack_login { c with substate := next, rlbytes := _, rsize := _ }
  · exact ⟨rfl, rfl⟩

/-- A stream connection whose client has not authenticated: it speaks the binary protocol and, when
it reads on, does so for a SASL command, whose data go to an area of `n` bytes. -/
structure Waits (n : ℤ) (c : Connection) : Prop where
  protocol : c.protocol = .binary
  authenticated : c.authenticated = false
  resumes : c.writeAndGo ≠ .nread
  nread : c.state = .nread →
    (c.substate = .readingSaslAuth ∧ ∃ off, c.ritem = .buffer off) ∨
      c.substate = .readingSaslAuthData ∧
        ∃ pos nbytes, c.ritem = .item pos nbytes ∧ 0 ≤ pos ∧ pos + c.rlbytes ≤ n

theorem Waits.login (h : Waits n c) (login : SameLogin c c') (resumes : c'.writeAndGo ≠ .nread)
    (state : c'.state ≠ .nread) : Waits n c' :=
  ⟨login.1.trans h.protocol, login.2.trans h.authenticated, resumes, fun at' => absurd at' state⟩

theorem Waits.chats (h : Waits n c) (chats : Chats c c') (state : c.state ≠ .nread) : Waits n c' :=
  h.login chats.login (chats.resumes h.resumes) (chats.state state)

theorem Waits.answers (h : Waits n c) (answers : Answers c c') (login : SameLogin c c') : Waits n c' :=
  h.login login (answers.resumes h.resumes) answers.state

theorem Waits.setState (h : Waits n c) {s : ConnState} (other : s ≠ .nread) :
    Waits n { c with state := s } :=
  h.login ⟨rfl, rfl⟩ h.resumes other

theorem Waits.handleBinaryProtocolError (h : Waits n c) : Waits n c.handleBinaryProtocolError :=
  h.answers c.handleBinaryProtocolError_answers (c.writeBinError_login 0)

theorem binReadKey_reads (c : Connection) (next : BinSubstate) (extra : ℕ) (memory : Bool) :
    (c.binReadKey next extra memory).writeAndGo = c.writeAndGo ∧
      ((c.binReadKey next extra memory).state = .closing ∨
        (c.binReadKey next extra memory).substate = next ∧
          ∃ off, (c.binReadKey next extra memory).ritem = .buffer off) := by
  have substate (d : Connection) : d.repack.substate = d.substate := by
    unfold repack
    split_ifs <;> rfl
  unfold binReadKey
  dsimp only
  split_ifs
  · exact ⟨rfl, .inl rfl⟩
  · exact ⟨repack_writeAndGo _, .inr ⟨substate _, _, rfl⟩⟩
  · exact ⟨rfl, .inr ⟨rfl, _, rfl⟩⟩

theorem Waits.binReadKey (h : Waits n c) (memory : Bool) :
    Waits n (c.binReadKey .readingSaslAuth 0 memory) := by
  have login := c.binReadKey_login .readingSaslAuth 0 memory
  obtain ⟨resumes, reads⟩ := c.binReadKey_reads .readingSaslAuth 0 memory
  refine ⟨login.1.trans h.protocol, login.2.trans h.authenticated, by rw [resumes]; exact h.resumes,
    fun at' => .inl (reads.resolve_left ?_)⟩
  rw [at']
  nofun

theorem Waits.readKey (h : Waits n c) (i : Input) :
    Waits n (match if c.header.extlen = 0 ∧ c.header.keylen ≠ 0 then
        some (BinSubstate.readingSaslAuth, 0) else none with
      | some (next, extra) => c.binReadKey next extra i.memory
      | none => c.handleBinaryProtocolError) := by
  split_ifs
  · exact h.binReadKey i.memory
  · exact h.handleBinaryProtocolError

theorem isAuthenticated_cmd (waits : c.authenticated = false) (passed : c.isAuthenticated = true) :
    c.cmd = .saslListMechs ∨ c.cmd = .saslAuth ∨ c.cmd = .saslStep ∨ c.cmd = .version := by
  simpa [isAuthenticated, waits, or_assoc] using passed

theorem dispatches_open (sasl : env.sasl = true) (waits : c.authenticated = false) {f : Handler}
    (runs : c.dispatches env = some f) : f.isOpen = true := by
  unfold dispatches at runs
  by_cases refused : (env.sasl && !c.isAuthenticated) = true
  · rw [if_pos refused] at runs
    cases runs
    rfl
  rw [if_neg refused] at runs
  by_cases long : c.header.keylen > keyMaxLength
  · rw [if_pos long] at runs
    cases runs
    rfl
  rw [if_neg long] at runs
  have passed : c.isAuthenticated = true := by simpa [sasl] using refused
  rcases isAuthenticated_cmd waits passed with cmd | cmd | cmd | cmd <;> rw [cmd] at runs <;>
    dsimp only at runs
  · obtain rfl := Option.some.inj runs
    split_ifs <;> rfl
  · obtain ⟨-, eq⟩ := Option.ite_none_left_eq_some.1 runs
    obtain rfl := Option.some.inj eq
    rfl
  · obtain ⟨-, eq⟩ := Option.ite_none_left_eq_some.1 runs
    obtain rfl := Option.some.inj eq
    rfl
  · obtain rfl := Option.some.inj runs
    split_ifs <;> rfl

theorem Waits.dispatchBinCommand (h : Waits n c) (sasl : env.sasl = true) (i : Input) :
    Waits n (c.dispatchBinCommand env i) := by
  have quiet (b : Bool) : Waits n { c with noreply := b } :=
    ⟨h.protocol, h.authenticated, h.resumes, h.nread⟩
  unfold Connection.dispatchBinCommand
  split_ifs with refused long
  · exact h.answers ((c.writeBinError_answers 0).resume .closing nofun) (c.writeBinError_login 0)
  · exact (quiet true).handleBinaryProtocolError
  · have passed : c.isAuthenticated = true := by simpa [sasl] using refused
    set d : Connection := { c with noreply := c.header.command.2 }
    have hd : Waits n d := quiet _
    have cmd : d.cmd = c.cmd := rfl
    unfold dispatchCommand
    rcases isAuthenticated_cmd h.authenticated passed with is | is | is | is <;> rw [cmd, is]
    · dsimp only
      split_ifs
      · refine hd.answers (d.binListSaslMechs_answers env i) ?_
        unfold binListSaslMechs initSaslConn
        rw [if_pos sasl]
        have login : SameLogin d { d with authenticated := false } :=
          ⟨rfl, h.authenticated.symm⟩
        split_ifs
        · exact d.writeBinError_login 0
        · exact login.trans (writeBinError_login _ 0)
        · exact login.trans (writeBinResponse_login _)
      · exact hd.handleBinaryProtocolError
    · exact hd.readKey i
    · exact hd.readKey i
    · dsimp only
      split_ifs
      · exact hd.answers d.writeBinResponse_answers d.writeBinResponse_login
      · exact hd.handleBinaryProtocolError

theorem Waits.tryReadCommand (h : Waits n c) (state : c.state ≠ .nread) (sasl : env.sasl = true)
    (i : Input) : Waits n (c.tryReadCommand env i).1 := by
  have same : c.negotiate = c := if_neg (by rw [h.protocol]; nofun)
  have header (b : BinaryHeader) (cmd : BinCmd) : Waits n { c with header := b, cmd := cmd } :=
    ⟨h.protocol, h.authenticated, h.resumes, fun at' => absurd at' state⟩
  unfold Connection.tryReadCommand
  simp only [same, h.protocol, if_true]
  unfold tryReadBinary
  dsimp only
  split_ifs with short magic broken
  · exact h
  · exact (header (binaryHeaderAt c.rbuf c.rcurr) c.cmd).setState nofun
  · exact (header (binaryHeaderAt c.rbuf c.rcurr) c.cmd).answers (outOfMemory_answers _)
      (outOfMemory_login _)
  · have waits := (header (binaryHeaderAt c.rbuf c.rcurr)
      (binaryHeaderAt c.rbuf c.rcurr).command.1).dispatchBinCommand sasl i
    exact ⟨waits.protocol, waits.authenticated, waits.resumes, waits.nread⟩

/-- A turn of `conn_nread` that waits for more moves `ritem` on by what has come. -/
theorem nread_moves (c : Connection) (env : NetSettings) (i : Input) (more : 0 < c.rlbytes) :
    SameLogin c (c.nread env i) ∧ (c.nread env i).writeAndGo = c.writeAndGo ∧
      (c.nread env i).substate = c.substate ∧
      ∃ k : ℤ, 0 ≤ k ∧ (c.nread env i).ritem = c.advance k ∧
        (c.nread env i).rlbytes = c.rlbytes - k := by
  have fill (d : Connection) (bytes : List UInt8) : SameLogin d (d.fillItem bytes) ∧
      (d.fillItem bytes).writeAndGo = d.writeAndGo ∧ (d.fillItem bytes).substate = d.substate := by
    unfold fillItem
    split <;> exact ⟨⟨rfl, rfl⟩, rfl, rfl⟩
  have read (d : Connection) : SameLogin d (d.readItem i) ∧
      (d.readItem i).writeAndGo = d.writeAndGo ∧ (d.readItem i).substate = d.substate ∧
      ∃ k : ℤ, 0 ≤ k ∧ (d.readItem i).ritem = d.advance k ∧
        (d.readItem i).rlbytes = d.rlbytes - k := by
    have stays : d.advance 0 = d.ritem := by
      unfold advance
      split <;> simp_all
    unfold readItem
    split
    · dsimp only
      split_ifs with empty
      · exact ⟨⟨rfl, rfl⟩, rfl, rfl, 0, le_refl _, stays.symm, (sub_zero _).symm⟩
      all_goals
        obtain ⟨login, resumes, substate⟩ := fill d (readUpTo d.rlbytes _)
        exact ⟨login, resumes, substate, _, Int.natCast_nonneg _, rfl, rfl⟩
    · unfold noBytes
      split_ifs <;>
        exact ⟨⟨rfl, rfl⟩, rfl, rfl, 0, le_refl _, stays.symm, (sub_zero _).symm⟩
  -- what the buffer holds is taken first
  have copy : SameLogin c c.copyLeftovers ∧ c.copyLeftovers.writeAndGo = c.writeAndGo ∧
      c.copyLeftovers.substate = c.substate ∧
      ∃ k : ℤ, 0 ≤ k ∧ c.copyLeftovers.ritem = c.advance k ∧
        c.copyLeftovers.rlbytes = c.rlbytes - k := by
    unfold copyLeftovers
    dsimp only
    split_ifs with some all
    · exact ⟨⟨rfl, rfl⟩, rfl, rfl, c.rlbytes, by omega, rfl, rfl⟩
    · exact ⟨⟨rfl, rfl⟩, rfl, rfl, c.rbytes, by omega, rfl, rfl⟩
    · refine ⟨⟨rfl, rfl⟩, rfl, rfl, 0, le_refl _, ?_, (sub_zero _).symm⟩
      unfold advance
      split <;> simp_all
  obtain ⟨login, resumes, substate, k, nonneg, ritem, rlbytes⟩ := copy
  rw [Connection.nread, if_neg (by omega), if_neg (by omega)]
  dsimp only
  split_ifs with done
  · exact ⟨login, resumes, substate, k, nonneg, ritem, rlbytes⟩
  · obtain ⟨login', resumes', substate', k', nonneg', ritem', rlbytes'⟩ := read c.copyLeftovers
    refine ⟨login.trans login', resumes'.trans resumes, substate'.trans substate, k + k', by omega,
      ?_, by omega⟩
    rw [ritem', advance, ritem]
    unfold advance
    cases c.ritem <;> simp [add_assoc]

theorem Waits.nread_more (h : Waits n c) (state : c.state = .nread) (more : 0 < c.rlbytes)
    (i : Input) : Waits n (c.nread env i) := by
  obtain ⟨login, resumes, substate, k, nonneg, ritem, rlbytes⟩ := c.nread_moves env i more
  refine ⟨login.1.trans h.protocol, login.2.trans h.authenticated, by rw [resumes]; exact h.resumes,
    fun _ => ?_⟩
  rw [substate, ritem, rlbytes]
  rcases h.nread state with ⟨auth, off, target⟩ | ⟨auth, pos, nbytes, target, low, high⟩
  · exact .inl ⟨auth, off + k, by rw [advance, target]⟩
  · exact .inr ⟨auth, pos + k, nbytes, by rw [advance, target], by omega, by omega⟩

theorem Waits.transmit (h : Waits n c) (i : Input) : Waits n (c.transmit i) := by
  unfold Connection.transmit
  split
  · split_ifs
    · exact h.setState nofun
    · exact h.setState h.resumes
  · exact h
  · exact h
  · exact h.setState nofun

theorem Waits.drive (h : Waits n c) (sasl : env.sasl = true) (i : Input)
    (quiet : c.state = .nread → c.rlbytes ≠ 0) : Waits n (c.drive env i) := by
  unfold Connection.drive
  cases state : c.state with
  | waiting =>
    dsimp only
    split_ifs <;> exact h.setState nofun
  | read => exact h.chats (c.readNetwork_chats i.reads) (by rw [state]; nofun)
  | parseCmd =>
    have waits := h.tryReadCommand (by rw [state]; nofun) sasl i
    dsimp only
    generalize c.tryReadCommand env i = r at waits
    split_ifs
    · exact waits
    · exact waits.setState nofun
  | newCmd =>
    dsimp only
    split_ifs
    · exact h.chats (c.resetCmdHandler_chats i.memory) (by rw [state]; nofun)
    · exact h.setState nofun
    · exact h
  | nread =>
    dsimp only
    rcases lt_or_ge 0 c.rlbytes with more | none
    · exact h.nread_more state more i
    · have negative : c.rlbytes < 0 := lt_of_le_of_ne none (quiet state)
      rw [Connection.nread, if_neg negative.ne, if_pos negative]
      exact h.setState nofun
  | swallow =>
    have other : c.state ≠ .nread := by rw [state]; nofun
    exact h.chats (c.swallow_chats i) other
  | write => exact h.transmit i
  | mwrite => exact h.transmit i
  | closing => exact h.setState nofun
  | closed => exact h
  | watch => exact h

theorem dispatches_other {f : Handler}
    (sasl : f = .processBinSaslAuth ∨ f = .processBinCompleteSaslAuth) :
    c.dispatches env ≠ some f := by
  rcases sasl with rfl | rfl <;> unfold dispatches <;> grind

theorem Waits.handler_open {transport : Transport} (h : Waits n c) (stream : transport ≠ .udp)
    (sasl : env.sasl = true) {f : Handler} (runs : c.handler transport env i = some f) :
    f.isOpen = true := by
  have same : c.chosen transport = c :=
    (if_neg stream).trans (if_neg (by rw [h.protocol]; nofun))
  unfold handler at runs
  split at runs
  · rw [same, if_pos h.protocol] at runs
    by_cases short : c.rbytes < sizeofBinaryHeader
    · rw [if_pos short] at runs
      cases runs
    rw [if_neg short] at runs
    dsimp only at runs
    by_cases magic : (binaryHeaderAt c.rbuf c.rcurr).magic ≠ 0x80
    · rw [if_pos magic] at runs
      cases runs
    rw [if_neg magic] at runs
    by_cases broken : (!i.msghdr) = true
    · rw [if_pos broken] at runs
      cases runs
      rfl
    rw [if_neg broken] at runs
    apply dispatches_open sasl _ runs
    exact h.authenticated
  · next state =>
    split_ifs at runs with done protocol
    · rcases h.nread state with ⟨auth, -⟩ | ⟨auth, -⟩ <;> rw [auth] at runs <;> cases runs <;> rfl
    · exact absurd h.protocol protocol
  · cases runs

theorem Waits.handler_nread {transport : Transport} (h : Waits n c) (state : c.state = .nread)
    (done : c.rlbytes = 0) :
    c.substate = .readingSaslAuth ∧ c.handler transport env i = some .processBinSaslAuth ∨
      c.substate = .readingSaslAuthData ∧
        c.handler transport env i = some .processBinCompleteSaslAuth := by
  unfold handler
  rw [state]
  simp only [if_pos done, if_pos h.protocol]
  rcases h.nread state with ⟨auth, -⟩ | ⟨auth, -⟩
  · exact .inl ⟨auth, by rw [auth]⟩
  · exact .inr ⟨auth, by rw [auth]⟩

theorem handler_sasl {transport : Transport} {f : Handler}
    (runs : c.handler transport env i = some f)
    (sasl : f = .processBinSaslAuth ∨ f = .processBinCompleteSaslAuth) :
    c.state = .nread ∧ c.rlbytes = 0 := by
  unfold handler at runs
  split at runs
  · dsimp only at runs
    split_ifs at runs
    · rcases sasl with rfl | rfl <;> cases runs
    · exact absurd runs (dispatches_other sasl)
    · obtain ⟨n, -, rfl⟩ := Option.map_eq_some_iff.1 runs
      rcases sasl with eq | eq <;> cases eq
  · next state =>
    split_ifs at runs with done
    · exact ⟨state, done⟩
    · exact ⟨state, done⟩
  · cases runs

theorem Waits.saslAuth_refused (h : Waits n c) (sasl : env.sasl = true) (i : Input)
    (refused : c.header.keylen > maxSaslMechLen ∨
      allocates env i c.header.keylen 0 c.header.appendVlen = false) :
    Waits n (c.processBinSaslAuth env i) := by
  unfold processBinSaslAuth
  dsimp only
  rw [if_neg (by simp [sasl]), if_pos (by simpa using refused)]
  exact h.answers ((c.writeBinError_answers _).resume .swallow nofun) (c.writeBinError_login _)

/-- `process_bin_sasl_auth` with an item goes on to read the data into it. -/
theorem Waits.saslAuth_upload (h : Waits n c) (sasl : env.sasl = true) (i : Input)
    (short : c.header.keylen ≤ maxSaslMechLen)
    (item : allocates env i c.header.keylen 0 c.header.appendVlen = true) :
    Waits c.header.appendVlen (c.processBinSaslAuth env i) := by
  unfold processBinSaslAuth
  dsimp only
  rw [if_neg (by simp [sasl]), if_neg (by simpa [item] using short)]
  refine ⟨h.protocol, h.authenticated, h.resumes, fun _ => .inr ⟨rfl, 0, _, rfl, le_refl _, ?_⟩⟩
  exact (zero_add _).le

theorem Waits.saslComplete (h : Waits n c) (sasl : env.sasl = true) (i : Input)
    (refused : i.sasl ≠ .ok) : Waits n (c.processBinCompleteSaslAuth env i) := by
  refine h.answers (c.processBinCompleteSaslAuth_answers env i) ?_
  unfold processBinCompleteSaslAuth initSaslConn
  rw [if_pos sasl]
  have login : SameLogin c { c with authenticated := false } := ⟨rfl, h.authenticated.symm⟩
  cases verdict : i.sasl with
  | ok => exact absurd verdict refused
  | more => exact ⟨rfl, h.authenticated.symm⟩
  | fail => exact login.trans (writeBinError_login _ 0)

theorem length_arriving (more : 0 < c.rlbytes) : ((c.arriving i).length : ℤ) ≤ c.rlbytes := by
  have leftovers : ((c.pending.take c.rlbytes.toNat).length : ℤ) ≤ c.rlbytes := by
    have := List.length_take_le c.rlbytes.toNat c.pending
    omega
  unfold arriving
  dsimp only
  split_ifs
  · exact leftovers
  · split
    · next bytes _ =>
      have := length_readUpTo (c.rlbytes - (c.pending.take c.rlbytes.toNat).length) bytes
      rw [List.length_append]
      omega
    · exact leftovers

end Connection

/-! ## The store during a SASL exchange -/

section

variable {s s' s'' : Store} {lay lay' : Layout} {id : ℕ} {r : Rec}

theorem SameItems.refl (s : Store) : SameItems s s :=
  ⟨rfl, rfl, rfl, rfl, rfl, fun _ _ => ⟨rfl, rfl, rfl⟩⟩

theorem SameItems.trans (h : SameItems s s') (h' : SameItems s' s'') : SameItems s s'' where
  settings := h'.settings.trans h.settings
  clock := h'.clock.trans h.clock
  casId := h'.casId.trans h.casId
  stats := h'.stats.trans h.stats
  table := h'.table.trans h.table
  items id member := by
    obtain ⟨metas, record, cas⟩ := h.items id member
    obtain ⟨metas', record', cas'⟩ := h'.items id (h.table ▸ member)
    exact ⟨metas'.trans metas, record'.trans record, cas'.trans cas⟩

theorem StoreInv.sameItems (h : StoreInv s lay) (settings : s'.settings = s.settings)
    (clock : s'.clock = s.clock) (casId : s'.casId = s.casId) (stats : s'.stats = s.stats)
    (table : s'.table = s.table) (metas : ∀ k ∈ s.table, s'.metas k = s.metas k)
    (bytes : ∀ k ∈ s.table, ∀ b ∈ lay.live, b.off = s.itemOf k →
      Agree s'.log.mem s.log.mem b.off b.stop) : SameItems s s' where
  settings := settings
  clock := clock
  casId := casId
  stats := stats
  table := table
  items k member := by
    obtain ⟨b, hb, off⟩ := h.live k member
    have same := bytes k member b hb off
    have item : s'.itemOf k = s.itemOf k := congrArg ItemMeta.item (metas k member)
    refine ⟨metas k member, ?_, ?_⟩
    · have decoded := (h.wholeRec hb).recOf_congr same
      simp only [recOf, off, Rec.mk.injEq, true_and] at decoded
      simp only [Store.recAt, recOf, item, Rec.mk.injEq, true_and]
      exact decoded
    · rw [item, ← off]
      exact (h.wholeRec hb).itemGetCas_congr same

/-- The item of a SASL exchange: a record of its own, which no linked item has. -/
structure Exchange (s : Store) (lay : Layout) (id : ℕ) (n : ℤ) : Prop where
  fresh : ∃ r, Fresh s lay id r ∧ n ≤ r.data.length
  apart : ∀ k ∈ s.table, s.itemOf k ≠ s.itemOf id

theorem StoreInv.allocExchange {key : Key} {nbytes : ℤ} {it : Option ℕ} {succeed : Bool}
    (h : StoreInv s lay) (ok : AllocOk s key 0 nbytes)
    (run : s.doItemAlloc key 0 0 nbytes = .ok (s', it, succeed)) :
    ∃ lay', StoreInv s' lay' ∧ SameItems s s' ∧ ∀ id, it = some id → Exchange s' lay' id nbytes := by
  obtain ⟨lay', inv, -, same, -, alloc⟩ := h.doItemAlloc ok run
  have records : ∀ k ∈ s.table, ∀ b ∈ lay.live, b.off = s.itemOf k →
      Agree s'.log.mem s.log.mem b.off b.stop := fun _ _ b hb _ => same b hb
  refine ⟨lay', inv, ?_⟩
  cases alloc with
  | failed live shape =>
    exact ⟨h.sameItems (by rw [shape]) (by rw [shape]; rfl) (by rw [shape]) (by rw [shape])
      (by rw [shape]) (fun k _ => by rw [shape]) records, nofun⟩
  | tombstone o marked live shape written =>
    exact ⟨h.sameItems (by rw [shape]) (by rw [shape]; rfl) (by rw [shape]) (by rw [shape])
      (by rw [shape]) (fun k _ => by rw [shape]) records, nofun⟩
  | item id o rest plain live free shape written =>
    have other : ∀ k ∈ s.table, k ≠ id := fun k member eq =>
      h.busy member (by rw [free, eq]; exact List.mem_cons_self)
    have metas : ∀ k ∈ s.table, s'.metas k = s.metas k := fun k member => by
      rw [shape]
      exact Function.update_of_ne (other k member) ..
    have item : s'.metas id = ⟨o, (s.metas id).time, 1, 0, (s.metas id).linked, false⟩ := by
      rw [shape]
      exact Function.update_self ..
    have place : s'.itemOf id = o := congrArg ItemMeta.item item
    refine ⟨h.sameItems (by rw [shape]) (by rw [shape]; rfl) (by rw [shape]) (by rw [shape])
      (by rw [shape]) metas records, ?_⟩
    rintro _ ⟨⟩
    set b : Block := ⟨o, allocTotal true key.length 0 nbytes⟩
    have hb : b ∈ lay'.live := by
      rw [live]
      exact List.mem_append_right _ (List.mem_singleton_self b)
    refine ⟨⟨recOf s'.log.mem b, ⟨SweepInv.mem_journal.2 ⟨b, hb, rfl⟩, place.symm, written.flags,
      ?_, ?_⟩, ?_⟩, ?_⟩
    · rw [item]
      exact h.unlinked id (by rw [free]; exact List.mem_cons_self)
    · rw [item]
    · simp only [recOf, dataOf, length_slice]
      rw [written.nbytes]
      exact Int.self_le_toNat nbytes
    · intro k member
      have member : k ∈ s.table := by
        rw [shape] at member
        exact member
      obtain ⟨c, hc, off⟩ := h.live k member
      have itemOf : s'.itemOf k = s.itemOf k := congrArg ItemMeta.item (metas k member)
      rw [itemOf, ← off, place]
      have new := inv.new_off live (List.mem_map.2 ⟨c, hc, rfl⟩ : recOf s.log.mem c ∈ _)
      exact new

theorem Exchange.receive {n : ℤ} (h : Exchange s lay id n) (inv : StoreInv s lay) (pos : ℕ)
    (bytes : List UInt8) (fits : (pos + bytes.length : ℤ) ≤ n) :
    let a := itemData s.log.mem (s.itemOf id) + pos
    StoreInv (s.setMem (write s.log.mem a bytes)) lay ∧
      SameItems s (s.setMem (write s.log.mem a bytes)) ∧
      Exchange (s.setMem (write s.log.mem a bytes)) lay id n := by
  obtain ⟨⟨r, fresh, size⟩, apart⟩ := h
  intro a
  have fills := fresh.write_data inv a bytes (Nat.le_add_right ..) (by omega)
  obtain ⟨b, hb, off, eq, -⟩ := fresh.block
  refine ⟨fills.inv, inv.sameItems rfl rfl rfl rfl rfl (fun _ _ => rfl) ?_,
    ⟨_, fills.fresh, by rw [fills.length]; exact size⟩, apart⟩
  intro k member c hc place
  have different : c ≠ b := fun same => apart k member (by rw [← place, same, off])
  apply agree_of_disjoint _ (inv.log.disjoint hc hb different)
  intro x hx
  have within := (inv.wholeRec hb).data_le
  have nbytes : nbytesOf s.log.mem b.off = r.data.length := by
    rw [off, nbytesOf_recAt, recAt_eq fresh.mem fresh.off]
  have base : b.off ≤ itemData s.log.mem b.off := by
    simp only [itemData]
    omega
  rw [nbytes] at within
  apply write_outside
  have start : a = itemData s.log.mem b.off + pos := by rw [off]
  omega

theorem Exchange.release {n : ℤ} (h : Exchange s lay id n) (inv : StoreInv s lay)
    (run : s.doItemRemove id = .ok s') : StoreInv s' lay ∧ SameItems s s' := by
  obtain ⟨⟨r, fresh, -⟩, -⟩ := h
  have same := sameTable_doItemRemove run
  have other : ∀ k ∈ s.table, k ≠ id := by
    rintro k member rfl
    have unlinked := fresh.unlinked
    rw [(inv.linked k).1 member] at unlinked
    cases unlinked
  have facts : s'.casId = s.casId ∧ s'.stats = s.stats ∧ ∀ k ≠ id, s'.metas k = s.metas k := by
    obtain ⟨-, -, ⟨-, rfl⟩ | ⟨-, -, rfl⟩⟩ := doItemRemove_ran run
    · exact ⟨rfl, rfl, fun k ne => Function.update_of_ne ne ..⟩
    · refine ⟨rfl, rfl, fun k ne => ?_⟩
      simp [Store.freelistFree, Store.refcountDecr, Store.updateMeta, ne]
  refine ⟨inv.doItemRemove run, inv.sameItems same.settings same.clock facts.1 facts.2.1 same.table
    (fun k member => facts.2.2 k (other k member)) fun _ _ _ _ _ => ?_⟩
  rw [same.log]
  exact fun _ _ _ => rfl

end

/-! ## Runs -/

namespace Session

variable {store : Store} {st st' : Session} {lay : Layout} {n : ℤ} {transport : Transport}
  {env : NetSettings}

/-- What holds before `SASL_OK`. -/
structure Inv (store : Store) (st : Session) (lay : Layout) (n : ℤ) : Prop where
  inv : StoreInv st.store lay
  waits : st.conn.Waits n
  ran : ∀ handler ∈ st.ran, handler.isOpen = true
  same : SameItems store st.store
  item : ∀ id, st.item = some id → Exchange st.store lay id n

theorem Inv.runs {handler : Handler} (h : Inv store st lay n) (isOpen : handler.isOpen = true) :
    ∀ f ∈ st.ran ++ [handler], f.isOpen = true := by
  intro f mem
  rcases List.mem_append.1 mem with mem | mem
  · exact h.ran f mem
  · rw [List.mem_singleton.1 mem]
    exact isOpen

theorem Inv.quiet {conn : Connection} (h : Inv store st lay n) (waits : conn.Waits n) :
    Inv store { st with conn } lay n :=
  ⟨h.inv, waits, h.ran, h.same, h.item⟩

theorem Inv.release {conn : Connection} {s : Store} (h : Inv store st lay n) (waits : conn.Waits n)
    (run : st.release = some s) : Inv store { st with conn, store := s, item := none } lay n := by
  unfold Session.release at run
  cases item : st.item with
  | none =>
    rw [item] at run
    obtain rfl := Option.some.inj run
    exact ⟨h.inv, waits, h.ran, h.same, nofun⟩
  | some id =>
    rw [item] at run
    obtain ⟨inv, same⟩ := (h.item id item).release h.inv (ok_of_toOption run)
    exact ⟨inv, waits, h.ran, h.same.trans same, nofun⟩

theorem Inv.receive {conn : Connection} {i : Input} (h : Inv store st lay n) (waits : conn.Waits n)
    (state : st.conn.state = .nread) (more : 0 < st.conn.rlbytes) :
    Inv store { st with conn, store := st.receive i } lay n := by
  unfold Session.receive
  split
  · next id pos nbytes item target =>
    rcases h.waits.nread state with ⟨-, off, buffer⟩ | ⟨-, pos', nbytes', target', low, high⟩
    · rw [target] at buffer
      cases buffer
    · rw [target] at target'
      cases target'
      have length := Connection.length_arriving (i := i) more
      have fits : ((pos.toNat : ℤ) + (st.conn.arriving i).length) ≤ n := by omega
      obtain ⟨inv, same, exchange⟩ := (h.item id item).receive h.inv pos.toNat _ fits
      refine ⟨inv, waits, h.ran, h.same.trans same, fun id' eq => ?_⟩
      obtain rfl := Option.some.inj (item.symm.trans eq)
      exact exchange
  · exact h.quiet waits

theorem Inv.saslAuth {i : Input} {s : Store} {it : Option ℕ} (h : Inv store st lay n)
    (sasl : env.sasl = true)
    (fits : AllocOk st.store st.conn.binaryGetKey 0 st.conn.header.appendVlen)
    (run : st.allocate env i = some (s, it)) :
    ∃ lay' n', Inv store { st with
      conn := st.conn.processBinSaslAuth env i
      store := s
      item := it
      ran := st.ran ++ [.processBinSaslAuth] } lay' n' := by
  unfold allocate at run
  dsimp only at run
  by_cases short : st.conn.header.keylen ≤ maxSaslMechLen
  · rw [if_pos ⟨sasl, short⟩] at run
    split at run
    · next s₁ it₁ succeed alloc =>
      split_ifs at run with agrees
      obtain ⟨rfl, rfl⟩ := Prod.mk.inj (Option.some.inj run)
      obtain ⟨lay', inv, same, exchange⟩ := h.inv.allocExchange fits alloc
      cases it₁ with
      | none =>
        refine ⟨lay', n, inv, h.waits.saslAuth_refused sasl i (.inr agrees.symm), h.runs rfl,
          h.same.trans same, nofun⟩
      | some id =>
        exact ⟨lay', _, inv, h.waits.saslAuth_upload sasl i short agrees.symm, h.runs rfl,
          h.same.trans same, exchange⟩
    · cases run
  · rw [if_neg fun both => short both.2] at run
    obtain ⟨rfl, rfl⟩ := Prod.mk.inj (Option.some.inj run)
    exact ⟨lay, n, h.inv, h.waits.saslAuth_refused sasl i (.inl (not_le.1 short)), h.runs rfl, h.same,
      nofun⟩

theorem Inv.saslComplete {i : Input} {s : Store} (h : Inv store st lay n) (sasl : env.sasl = true)
    (refused : i.sasl ≠ .ok)
    (run : st.item.elim (some st.store) (fun id => (st.store.doItemUnlink id).toOption) = some s) :
    Inv store { st with
      conn := st.conn.processBinCompleteSaslAuth env i
      store := s
      passed := st.passed || i.sasl = .ok
      ran := st.ran ++ [.processBinCompleteSaslAuth] } lay n := by
  -- the item has never been linked, so that unlinking it does nothing
  have same : s = st.store := by
    cases item : st.item with
    | none =>
      rw [item] at run
      exact (Option.some.inj run).symm
    | some id =>
      obtain ⟨⟨r, fresh, -⟩, -⟩ := h.item id item
      rw [item] at run
      have run := ok_of_toOption run
      rw [Store.doItemUnlink, if_neg (by rw [fresh.unlinked]; exact Bool.false_ne_true)] at run
      exact (pure_ran.1 run).symm
  rw [same]
  exact ⟨h.inv, h.waits.saslComplete sasl i refused, h.runs rfl, h.same, h.item⟩

/-- `SASL_OK` is not forgotten. -/
theorem passed_next {a : SessionAction} (passed : st.passed = true)
    (run : st.next transport env a = some st') : st'.passed = true := by
  cases a with
  | idle =>
    obtain rfl := Option.some.inj run
    exact passed
  | turn i serve =>
    simp only [next] at run
    split at run
    · obtain ⟨p, -, rfl⟩ := Option.map_eq_some_iff.1 run
      exact passed
    · obtain ⟨s, -, rfl⟩ := Option.map_eq_some_iff.1 run
      simp [passed]
    · obtain rfl := Option.some.inj run
      exact passed
    · split at run
      · obtain rfl := Option.some.inj run
        exact passed
      · split_ifs at run
        · obtain rfl := Option.some.inj run
          exact passed
        · obtain ⟨s, -, rfl⟩ := Option.map_eq_some_iff.1 run
          exact passed
      · obtain ⟨s, -, rfl⟩ := Option.map_eq_some_iff.1 run
        exact passed
      · obtain rfl := Option.some.inj run
        exact passed

theorem Inv.turn {i : Input} {serve : Store → Store} (h : Inv store st lay n)
    (sasl : env.sasl = true) (stream : transport ≠ .udp)
    (fits : st.conn.handler transport env i = some .processBinSaslAuth →
      AllocOk st.store st.conn.binaryGetKey 0 st.conn.header.appendVlen)
    (run : st.next transport env (.turn i serve) = some st') :
    st'.passed = true ∨ ∃ lay n, Inv store st' lay n := by
  have drive : st.conn.driveOn transport env i = st.conn.drive env i := if_neg stream
  simp only [next, drive] at run
  by_cases complete : st.conn.state = .nread ∧ st.conn.rlbytes = 0
  · obtain ⟨state, done⟩ := complete
    have turn : st.conn.drive env i = st.conn.completeNreadBinary env i := by
      rw [Connection.drive, state]
      dsimp only
      rw [Connection.nread, if_pos done, if_pos h.waits.protocol]
    rw [turn] at run
    rcases h.waits.handler_nread state done with ⟨auth, handler⟩ | ⟨auth, handler⟩
    · rw [handler] at run
      obtain ⟨⟨s, it⟩, alloc, rfl⟩ := Option.map_eq_some_iff.1 run
      have body : st.conn.completeNreadBinary env i = st.conn.processBinSaslAuth env i := by
        rw [Connection.completeNreadBinary, auth]
      rw [body]
      exact .inr (h.saslAuth sasl (fits handler) alloc)
    · rw [handler] at run
      obtain ⟨s, unlink, rfl⟩ := Option.map_eq_some_iff.1 run
      have body : st.conn.completeNreadBinary env i =
          st.conn.processBinCompleteSaslAuth env i := by
        rw [Connection.completeNreadBinary, auth]
      rw [body]
      by_cases ok : i.sasl = .ok
      · exact .inl (by simp [ok])
      · exact .inr ⟨lay, n, h.saslComplete sasl ok unlink⟩
  · have waits : (st.conn.drive env i).Waits n :=
      h.waits.drive sasl i fun state done => complete ⟨state, done⟩
    have notDone : ∀ f, st.conn.handler transport env i = some f →
        f ≠ .processBinSaslAuth ∧ f ≠ .processBinCompleteSaslAuth := fun f runs =>
      ⟨fun eq => complete (Connection.handler_sasl runs (.inl eq)),
        fun eq => complete (Connection.handler_sasl runs (.inr eq))⟩
    split at run
    · next handler => exact absurd rfl (notDone _ handler).1
    · next handler => exact absurd rfl (notDone _ handler).2
    · next handler _ _ runs =>
      obtain rfl := Option.some.inj run
      have isOpen := h.waits.handler_open stream sasl runs
      rw [if_pos isOpen]
      exact .inr ⟨lay, n, h.inv, waits, h.runs isOpen, h.same, h.item⟩
    · split at run
      · next state =>
        obtain rfl := Option.some.inj run
        split_ifs with more
        · exact .inr ⟨lay, n, h.receive waits state more⟩
        · exact .inr ⟨lay, n, h.quiet waits⟩
      · split_ifs at run
        · obtain rfl := Option.some.inj run
          exact .inr ⟨lay, n, h.quiet waits⟩
        · obtain ⟨s, release, rfl⟩ := Option.map_eq_some_iff.1 run
          exact .inr ⟨lay, n, h.release waits release⟩
      · obtain ⟨s, release, rfl⟩ := Option.map_eq_some_iff.1 run
        exact .inr ⟨lay, n, h.release waits release⟩
      · obtain rfl := Option.some.inj run
        exact .inr ⟨lay, n, h.quiet waits⟩

theorem waits_connNewOn (binary : env.bindingProtocol = .binary) (old : Option Connection) :
    (Connection.connNewOn transport env old).Waits n := by
  have state : (if transport = .udp then ConnState.read else .newCmd) ≠ .nread := by
    split_ifs <;> nofun
  unfold Connection.connNewOn
  cases old with
  | none => exact ⟨binary, rfl, nofun, fun reads => absurd reads state⟩
  | some c => exact ⟨binary, rfl, nofun, fun reads => absurd reads state⟩

/-- On a stream connection, and as long as the data of SASL exchanges fit into the log, nothing but
`version`, the SASL commands and error replies happens before `SASL_OK`. -/
theorem sasl_gate {as : List SessionAction} (old : Option Connection) (sasl : env.sasl = true)
    (binary : env.bindingProtocol = .binary) (inv : StoreInv store lay)
    (run : Run (GoodStep transport env) (start (.connNewOn transport env old) store) as st) :
    st.Gated store := by
  have holds := run.invariant (fun st => st.passed = true ∨ ∃ lay n, Inv store st lay n) (by
    rintro st a st' held ⟨fits, run⟩
    rcases held with passed | ⟨lay, n, h⟩
    · exact .inl (passed_next passed run)
    · cases a with
      | turn i serve => exact h.turn sasl fits.1 fits.2 run
      | idle =>
        obtain rfl := Option.some.inj run
        refine .inr ⟨lay, n, h.quiet ?_⟩
        unfold Connection.handle
        dsimp only
        split_ifs
        · exact h.waits.setState nofun
        · exact h.waits)
    (.inr ⟨lay, 0, inv, waits_connNewOn binary old, nofun, .refl store, nofun⟩)
  intro unpassed
  rcases holds with passed | ⟨lay, n, h⟩
  · rw [passed] at unpassed
    cases unpassed
  · exact ⟨h.ran, h.same⟩

instance (s : Store) (key : Key) (flags : ℕ) (nbytes : ℤ) : Decidable (AllocOk s key flags nbytes) :=
  decidable_of_iff (key.length ≤ 250 ∧ flags < 2 ^ 32 ∧ 0 ≤ nbytes ∧ nbytes < 2 ^ 31 ∧
      16 * allocTotal true key.length flags nbytes ≤ s.log.memLimit ∧
      WrapOk s.log (allocTotal true key.length flags nbytes))
    ⟨fun ⟨short, word, nonneg, bounded, size, wrap⟩ => ⟨short, word, nonneg, bounded, size, wrap⟩,
      fun ok => ⟨ok.short, ok.word, ok.nonneg, ok.bounded, ok.size, ok.wrap⟩⟩

instance (transport : Transport) (env : NetSettings) (st : Session) :
    ∀ a, Decidable (st.Fits transport env a)
  | .turn _ _ => inferInstanceAs (Decidable (_ ∧ (_ → _)))
  | .idle => inferInstanceAs (Decidable (_ ≠ _))

/-- The settings of `-S`. -/
def saslNet : NetSettings := ⟨.binary, true, true⟩

def freshStore : Store := .init (settingsInit 1500000000) memlogDefaultSize 62

/-- A turn in which the given bytes, if any, arrive and the SASL library refuses. -/
def refusedTurn (bytes : List UInt8) (serve : Store → Store) : SessionAction :=
  .turn ⟨true, false, [(true, .data bytes)], true, true, true, .response, .complete, .fail⟩ serve

/-- The requests `version`, `sasl_auth` with `PLAIN` and one byte, and `get a`. -/
def unauthenticated : List UInt8 :=
  [0x80, 0x0b] ++ List.replicate 22 0 ++
  ([0x80, 0x21, 0, 5, 0, 0, 0, 0, 0, 0, 0, 6] ++ List.replicate 12 0 ++
    [80, 76, 65, 73, 78, 120]) ++
  ([0x80, 0x00, 0, 1, 0, 0, 0, 0, 0, 0, 0, 1] ++ List.replicate 12 0 ++ [97])

/-- The requests arrive together and are answered one after another. -/
def refusedTrace : List SessionAction :=
  List.replicate 2 (refusedTurn [] id) ++ refusedTurn unauthenticated id ::
    List.replicate 13 (refusedTurn [] id)

def nextSimply (transport : Transport) (env : NetSettings) (st : Session) (a : SessionAction) :
    Option Session :=
  if st.Fits transport env a then st.next transport env a else none

theorem sasl_gate_refused : ∃ st, Run (GoodStep .tcp saslNet)
    (start (.connNewOn .tcp saslNet none) freshStore) refusedTrace st ∧ st.Gated freshStore ∧
      st.passed = false ∧ st.conn.state = .closed ∧
      st.ran = [.version, .processBinSaslAuth, .processBinCompleteSaslAuth, .error] := by
  have eval : (refusedTrace.foldlM (nextSimply .tcp saslNet)
      (start (.connNewOn .tcp saslNet none) freshStore)).map (fun st =>
        (st.passed, st.conn.state, st.ran)) =
      some (false, .closed,
        [.version, .processBinSaslAuth, .processBinCompleteSaslAuth, .error]) := by
    decide +kernel
  obtain ⟨st, run, last⟩ := Option.map_eq_some_iff.1 eval
  have steps : Run (GoodStep .tcp saslNet) _ _ st :=
    (Run.of_foldlM run).mono fun _ _ _ next => Option.ite_none_right_eq_some.1 next
  obtain ⟨passed, rest⟩ := Prod.mk.inj last
  obtain ⟨closed, ran⟩ := Prod.mk.inj rest
  have inv : StoreInv freshStore (.flat []) := Store.init_inv (by decide) (by decide) rfl
  exact ⟨st, steps, sasl_gate none rfl rfl inv steps, passed, closed, ran⟩

/-- A datagram with an ASCII `flush_all`. -/
def flushDatagram : List UInt8 :=
  [0, 0, 0, 0, 0, 1, 0, 0, 102, 108, 117, 115, 104, 95, 97, 108, 108, 13, 10]

/-- `flush_all` in the ASCII protocol, sent to the UDP socket by a client that has not
authenticated, is obeyed. -/
theorem sasl_gate_bypassed : ∃ st, Run (fun st a st' => st.next .udp saslNet a = some st')
    (start (.connNewOn .udp saslNet none) freshStore)
    [refusedTurn flushDatagram fun s => s, refusedTurn [] fun s => (s.flushAll 0).1] st ∧
      st.passed = false ∧
      st.ran = [.processCommand [102, 108, 117, 115, 104, 95, 97, 108, 108]] ∧
      st.store.oldestLive ≠ freshStore.oldestLive ∧ ¬ st.Gated freshStore := by
  have eval : ([refusedTurn flushDatagram fun s => s,
        refusedTurn [] fun s => (s.flushAll 0).1].foldlM (next .udp saslNet)
      (start (.connNewOn .udp saslNet none) freshStore)).map (fun st =>
        (st.passed, st.ran, st.store.oldestLive)) =
      some (false, [.processCommand [102, 108, 117, 115, 104, 95, 97, 108, 108]], 61) := by
    decide +kernel
  obtain ⟨st, run, last⟩ := Option.map_eq_some_iff.1 eval
  obtain ⟨passed, rest⟩ := Prod.mk.inj last
  obtain ⟨ran, flushed⟩ := Prod.mk.inj rest
  refine ⟨st, Run.of_foldlM run, passed, ran, ?_, fun gated => ?_⟩
  · rw [flushed]
    decide
  · have isOpen := (gated passed).1
    rw [ran] at isOpen
    exact absurd (isOpen _ (List.mem_singleton_self _)) (by decide)

end Session

end LogMemcached
