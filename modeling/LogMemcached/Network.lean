import LogMemcached.Commands

/-!
# A connection and its read buffer

`drive_machine` of `memcached.c` for a TCP client, with the functions that move the read buffer:
`try_read_network`, `try_read_command`, the header checks of `dispatch_bin_command`, `bin_read_key`
and the storage commands of both protocols.  Pointers into the buffer are offsets from `rbuf`.  What
the kernel, the allocator and the commands that do not touch the buffer answer is an input of the
step.
-/

namespace LogMemcached

open ByteMem CText

/-! ## State -/

/-- `enum conn_states`, without the states of a listening socket. -/
inductive ConnState
  | newCmd | waiting | read | parseCmd | write | nread | swallow | closing | mwrite | closed | watch
deriving DecidableEq, Repr

/-- `enum protocol`. -/
inductive Protocol
  | ascii | binary | negotiating
deriving DecidableEq, Repr

/-- `enum network_transport`. -/
inductive Transport
  | unixSocket | tcp | udp
deriving DecidableEq, Repr

/-- `enum bin_substates`. -/
inductive BinSubstate
  | noState | readingSetHeader | readSetValue | readingGetKey | readingTouchKey | readingStat
  | readingDelHeader | readingIncrHeader | readFlushExptime | readingSaslAuth
  | readingSaslAuthData
deriving DecidableEq, Repr

/-- The binary commands that `c->cmd` is compared with; `nread` stands for the `NREAD_` values it
holds while a data block is read. -/
inductive BinCmd
  | get | set | add | replace | delete | increment | decrement | quit | flush | noop | version
  | getk | append | prepend | stat | touch | gat | gatk | saslListMechs | saslAuth | saslStep
  | unknown | nread
deriving DecidableEq, Repr

/-- The fields of `protocol_binary_request_header` that are read, in host order. -/
structure BinaryHeader where
  magic : UInt8
  opcode : UInt8
  keylen : ℕ
  extlen : ℕ
  bodylen : ℕ
deriving DecidableEq, Repr

/-- Where `c->ritem` points: nowhere, at an offset of the read buffer, or at a position of a data
area of `nbytes` bytes. -/
inductive RItem
  | null
  | buffer (off : ℤ)
  | item (pos nbytes : ℤ)
deriving DecidableEq, Repr

/-- A `conn`.  `received` and `repacks` are not in the source: they count the bytes read from the
socket and the times the buffer's contents were moved to its start. -/
structure Connection where
  state : ConnState
  writeAndGo : ConnState
  protocol : Protocol
  substate : BinSubstate
  authenticated : Bool
  noreply : Bool
  cmd : BinCmd
  header : BinaryHeader
  rbuf : ℤ → UInt8
  rsize : ℤ
  rcurr : ℤ
  rbytes : ℤ
  rlbytes : ℤ
  ritem : RItem
  sbytes : ℤ
  received : ℤ
  repacks : ℕ

/-- The settings a connection reads. -/
structure NetSettings where
  bindingProtocol : Protocol
  sasl : Bool
  useCas : Bool
deriving DecidableEq, Repr

/-- The result of `read`. -/
inductive ReadAnswer
  | data (bytes : List UInt8)
  | again
  | error
deriving DecidableEq, Repr

/-- `enum transmit_result`. -/
inductive TransmitResult
  | complete | incomplete | softError | hardError
deriving DecidableEq, Repr

/-- What a command that leaves the read buffer alone does to its connection: `out_string`,
`write_bin_response` or `write_bin_error`, `conn_mwrite`, `write_and_free`, no response, `quit`, or
the hand-over to the logger. -/
inductive ConnEffect
  | reply (noreply : Bool) | response | error | values | text | silent | quit | watch
deriving DecidableEq, Repr

/-- The result of `sasl_server_start` or `sasl_server_step`: `SASL_OK`, `SASL_CONTINUE` or another. -/
inductive SaslResult
  | ok | more | fail
deriving DecidableEq, Repr

/-- What the surroundings answer during one turn of `drive_machine`: `event` is `update_event`,
`yields` an exhausted `nreqs`, `reads` the turns of the loop of `try_read_network` or its first one
the read of another state, each with the `realloc` before it, `msghdr` is `add_msghdr`, `memory` a
`realloc` outside that loop, `item` whether `item_alloc` finds room and `sasl` the verdict of the SASL
library. -/
structure Input where
  event : Bool
  yields : Bool
  reads : List (Bool × ReadAnswer)
  msghdr : Bool
  memory : Bool
  item : Bool
  effect : ConnEffect
  transmit : TransmitResult
  sasl : SaslResult
deriving DecidableEq, Repr

/-- `DATA_BUFFER_SIZE`. -/
def dataBufferSize : ℤ := 2048

/-- `READ_BUFFER_HIGHWAT`. -/
def readBufferHighwat : ℤ := 8192

/-- `sizeof(protocol_binary_request_header)`. -/
def sizeofBinaryHeader : ℤ := 24

/-- `MAX_SASL_MECH_LEN`. -/
def maxSaslMechLen : ℕ := 32

/-- The conversion to a 32-bit `int`. -/
def toInt (z : ℤ) : ℤ := Int.bmod z (2 ^ 32)

/-! ## Header lines -/

/-- `safe_strtoul`, where `unsigned long` has 64 bits and the result 32. -/
def safeStrtoul (str : List UInt8) : Option ℕ := (safeStrtoull str).map (· % 2 ^ 32)

/-- `safe_strtol`, where `long` has 64 bits and the result 32. -/
def safeStrtol (str : List UInt8) : Option ℤ :=
  match scanNumber (str.takeWhile (· != 0)) with
  | none => none
  | some n =>
      let l : ℤ := if n.negative then -n.magnitude else n.magnitude
      if l < -2 ^ 63 ∨ 2 ^ 63 ≤ l then none
      else if n.rest.head?.all isSpace then some (toInt l) else none

/-- `tokenize_command`, without the terminal token. -/
def tokenizeCommand (text : List UInt8) : List (List UInt8) :=
  (((text.takeWhile (· != 0)).splitOn 32).filter (· ≠ [])).take 7

/-- The header line of a storage command. -/
structure UpdateLine where
  key : Key
  flags : ℕ
  exptime : ℤ
  vlen : ℤ
  cas : ℕ
deriving DecidableEq, Repr

/-- The CAS id of a header line, read when `handle_cas` is set. -/
def parseCas (handleCas : Bool) (rest : List (List UInt8)) : Option ℕ :=
  if handleCas then rest.head?.bind safeStrtoull else some 0

/-- The numbers `process_update_command` reads off its tokens; `none` when it answers that the line
is badly formatted. -/
def parseUpdate (tokens : List (List UInt8)) (handleCas : Bool) : Option UpdateLine :=
  match tokens with
  | _ :: key :: flags :: exptime :: bytes :: rest =>
      if key.length > keyMaxLength then none
      else do
        let flags ← safeStrtoul flags
        let exptime ← safeStrtol exptime
        let vlen ← safeStrtol bytes
        let cas ← parseCas handleCas rest
        if vlen < 0 ∨ vlen > 2 ^ 31 - 1 - 2 then none else some ⟨key, flags, exptime, vlen, cas⟩
  | _ => none

/-- Whether `process_command` hands the tokens to `process_update_command`, and its `handle_cas`. -/
def updateKind (tokens : List (List UInt8)) : Option Bool :=
  match tokens.head? with
  | none => none
  | some name =>
      if (tokens.length = 5 ∨ tokens.length = 6) ∧
          name ∈ ["add", "set", "replace", "prepend", "append"].map (·.toUTF8.toList) then
        some false
      else if (tokens.length = 6 ∨ tokens.length = 7) ∧ name = "cas".toUTF8.toList then some true
      else none

/-- The test of `set_noreply_maybe`. -/
def saysNoreply (tokens : List (List UInt8)) : Bool :=
  tokens.getLast? == some "noreply".toUTF8.toList

/-! ## Binary headers -/

/-- The big-endian number in `n` bytes of the buffer. -/
def bigEndian (buf : ℤ → UInt8) (a : ℤ) : ℕ → ℕ
  | 0 => 0
  | n + 1 => bigEndian buf a n * 256 + (buf (a + n)).toNat

/-- The header at an offset of the buffer. -/
def binaryHeaderAt (buf : ℤ → UInt8) (a : ℤ) : BinaryHeader where
  magic := buf a
  opcode := buf (a + 1)
  keylen := bigEndian buf (a + 2) 2
  extlen := bigEndian buf (a + 4) 1
  bodylen := bigEndian buf (a + 8) 4

/-- The command of an opcode, and whether it is the quiet form. -/
def BinaryHeader.command (h : BinaryHeader) : BinCmd × Bool :=
  match h.opcode.toNat with
  | 0x00 => (.get, false)
  | 0x01 => (.set, false)
  | 0x02 => (.add, false)
  | 0x03 => (.replace, false)
  | 0x04 => (.delete, false)
  | 0x05 => (.increment, false)
  | 0x06 => (.decrement, false)
  | 0x07 => (.quit, false)
  | 0x08 => (.flush, false)
  | 0x09 => (.get, true)
  | 0x0a => (.noop, false)
  | 0x0b => (.version, false)
  | 0x0c => (.getk, false)
  | 0x0d => (.getk, true)
  | 0x0e => (.append, false)
  | 0x0f => (.prepend, false)
  | 0x10 => (.stat, false)
  | 0x11 => (.set, true)
  | 0x12 => (.add, true)
  | 0x13 => (.replace, true)
  | 0x14 => (.delete, true)
  | 0x15 => (.increment, true)
  | 0x16 => (.decrement, true)
  | 0x17 => (.quit, true)
  | 0x18 => (.flush, true)
  | 0x19 => (.append, true)
  | 0x1a => (.prepend, true)
  | 0x1c => (.touch, false)
  | 0x1d => (.gat, false)
  | 0x1e => (.gat, true)
  | 0x20 => (.saslListMechs, false)
  | 0x21 => (.saslAuth, false)
  | 0x22 => (.saslStep, false)
  | 0x23 => (.gatk, false)
  | 0x24 => (.gatk, true)
  | _ => (.unknown, false)

namespace BinaryHeader

/-- The next substate and the `extra` bytes with which `dispatch_bin_command` calls `bin_read_key`;
`none` when it reports a protocol error.  Commands without a key are not in this table. -/
def readsKey (h : BinaryHeader) : BinCmd → Option (BinSubstate × ℕ)
  | .flush =>
      if h.keylen = 0 ∧ h.bodylen = h.extlen ∧ (h.extlen = 0 ∨ h.extlen = 4) then
        some (.readFlushExptime, h.extlen)
      else none
  | .set | .add | .replace =>
      if h.extlen = 8 ∧ h.keylen ≠ 0 ∧ h.bodylen ≥ h.keylen + 8 then some (.readingSetHeader, 8)
      else none
  | .get | .getk =>
      if h.extlen = 0 ∧ h.bodylen = h.keylen ∧ h.keylen > 0 then some (.readingGetKey, 0) else none
  | .delete =>
      if h.keylen > 0 ∧ h.extlen = 0 ∧ h.bodylen = h.keylen then some (.readingDelHeader, h.extlen)
      else none
  | .increment | .decrement =>
      if h.keylen > 0 ∧ h.extlen = 20 ∧ h.bodylen = h.keylen + h.extlen then
        some (.readingIncrHeader, 20)
      else none
  | .append | .prepend =>
      if h.keylen > 0 ∧ h.extlen = 0 then some (.readingSetHeader, 0) else none
  | .stat => if h.extlen = 0 then some (.readingStat, 0) else none
  | .saslAuth | .saslStep =>
      if h.extlen = 0 ∧ h.keylen ≠ 0 then some (.readingSaslAuth, 0) else none
  | .touch | .gat | .gatk =>
      if h.extlen = 4 ∧ h.keylen ≠ 0 then some (.readingTouchKey, 4) else none
  | _ => none

/-- A header without extras, key or body. -/
def bare (h : BinaryHeader) : Bool := h.extlen = 0 ∧ h.keylen = 0 ∧ h.bodylen = 0

/-- `vlen` of `process_bin_update`. -/
def updateVlen (h : BinaryHeader) : ℤ := toInt (h.bodylen - (h.keylen + h.extlen))

/-- `vlen` of `process_bin_append_prepend` and of `process_bin_sasl_auth`. -/
def appendVlen (h : BinaryHeader) : ℤ := toInt (h.bodylen - h.keylen)

end BinaryHeader

/-! ## Responses -/

namespace Connection

/-- `out_string`. -/
def outString (c : Connection) : Connection :=
  if c.noreply then { c with noreply := false, state := .newCmd }
  else { c with state := .write, writeAndGo := .newCmd }

/-- `write_bin_error`. -/
def writeBinError (c : Connection) (swallow : ℤ) : Connection :=
  if swallow > 0 then { c with state := .mwrite, sbytes := swallow, writeAndGo := .swallow }
  else { c with state := .mwrite, writeAndGo := .newCmd }

/-- `write_bin_response`. -/
def writeBinResponse (c : Connection) : Connection :=
  if !c.noreply || c.cmd = .get || c.cmd = .getk then
    { c with state := .mwrite, writeAndGo := .newCmd }
  else { c with state := .newCmd }

/-- `out_of_memory`. -/
def outOfMemory (c : Connection) : Connection :=
  if c.protocol = .binary then c.writeBinError 0 else c.outString

/-- `handle_binary_protocol_error`. -/
def handleBinaryProtocolError (c : Connection) : Connection :=
  { c.writeBinError 0 with writeAndGo := .closing }

/-- A command that leaves the read buffer alone. -/
def finish (c : Connection) : ConnEffect → Connection
  | .reply noreply => { c with noreply := c.noreply || noreply }.outString
  | .response => c.writeBinResponse
  | .error => c.writeBinError 0
  | .values => { c with state := .mwrite, writeAndGo := .newCmd }
  | .text => { c with state := .write, writeAndGo := .newCmd }
  | .silent => { c with state := .newCmd }
  | .quit => { c with state := .closing }
  | .watch => { c with state := .watch }

/-! ## Moving the buffer -/

/-- The `memmove` of what is left to the start of the buffer. -/
def repack (c : Connection) : Connection :=
  if c.rcurr = 0 then c
  else
    { c with
      rbuf := fun x => if 0 ≤ x ∧ x < c.rbytes then c.rbuf (c.rcurr + x) else c.rbuf x
      rcurr := 0
      repacks := c.repacks + 1 }

/-- `conn_shrink`. -/
def connShrink (c : Connection) (memory : Bool) : Connection :=
  if c.rsize > readBufferHighwat ∧ c.rbytes < dataBufferSize then
    let c := c.repack
    if memory then { c with rsize := dataBufferSize } else c
  else c

/-- The bytes a `read` of at most `n` bytes returns. -/
def readUpTo (n : ℤ) (bytes : List UInt8) : List UInt8 := bytes.take n.toNat

/-- Bytes read to an offset of the buffer. -/
def store (c : Connection) (off : ℤ) (bytes : List UInt8) : Connection :=
  { c with
    rbuf := fun x => if 0 ≤ x - off ∧ x - off < bytes.length then bytes.getD (x - off).toNat 0
      else c.rbuf x
    received := c.received + bytes.length }

/-! ## `try_read_network` -/

/-- `enum try_read_result`. -/
inductive TryRead
  | dataReceived | noDataReceived | error | memoryError
deriving DecidableEq, Repr

/-- The loop of `try_read_network`; `allocs` is `num_allocs`.  A list that ends means that the next
`read` would block.  The doubled size is an `int`, and `realloc` refuses it once it is negative. -/
def readLoop : List (Bool × ReadAnswer) → ℕ → TryRead → Connection → Connection × TryRead
  | [], _, gotdata, c => (c, gotdata)
  | (memory, answer) :: rest, allocs, gotdata, c =>
      if c.rbytes ≥ c.rsize ∧ allocs = 4 then (c, gotdata)
      else if c.rbytes ≥ c.rsize ∧ ¬(memory ∧ c.rsize * 2 < 2 ^ 31) then
        ({ { c with rbytes := 0 }.outOfMemory with writeAndGo := .closing }, .memoryError)
      else
        let allocs := if c.rbytes ≥ c.rsize then allocs + 1 else allocs
        let c := if c.rbytes ≥ c.rsize then { c with rcurr := 0, rsize := c.rsize * 2 } else c
        let avail := c.rsize - c.rbytes
        match answer with
        | .again => (c, gotdata)
        | .error => (c, .error)
        | .data bytes =>
            let got := readUpTo avail bytes
            if got = [] then (c, .error)
            else
              let c := { c.store c.rbytes got with rbytes := c.rbytes + got.length }
              if got.length = avail then readLoop rest allocs .dataReceived c
              else (c, .dataReceived)

/-- `try_read_network`. -/
def tryReadNetwork (c : Connection) (reads : List (Bool × ReadAnswer)) : Connection × TryRead :=
  readLoop reads 0 .noDataReceived c.repack

/-- `conn_read`. -/
def readNetwork (c : Connection) (reads : List (Bool × ReadAnswer)) : Connection :=
  match c.tryReadNetwork reads with
  | (c, .noDataReceived) => { c with state := .waiting }
  | (c, .dataReceived) => { c with state := .parseCmd }
  | (c, .error) => { c with state := .closing }
  | (c, .memoryError) => c

/-! ## Binary requests -/

/-- The doubling of `nsize` in `bin_read_key`. -/
def growSize : ℕ → ℤ → ℤ → ℤ
  | 0, _, nsize => nsize
  | fuel + 1, size, nsize => if size > nsize then growSize fuel size (nsize * 2) else nsize

/-- `bin_read_key`. -/
def binReadKey (c : Connection) (next : BinSubstate) (extra : ℕ) (memory : Bool) : Connection :=
  let c := { c with substate := next, rlbytes := c.header.keylen + extra }
  let nsize := growSize 32 (c.rlbytes + sizeofBinaryHeader) c.rsize
  if c.rlbytes > c.rsize - (c.rcurr + sizeofBinaryHeader) then
    if nsize ≠ c.rsize ∧ !memory then { c with state := .closing }
    else
      let c := { c with rsize := nsize }.repack
      { c with ritem := .buffer (c.rcurr + sizeofBinaryHeader), state := .nread }
  else { c with ritem := .buffer (c.rcurr + sizeofBinaryHeader), state := .nread }

/-- `authenticated`. -/
def isAuthenticated (c : Connection) : Bool :=
  c.cmd = .saslListMechs || c.cmd = .saslAuth || c.cmd = .saslStep || c.cmd = .version ||
    c.authenticated

/-- `init_sasl_conn`, without the SASL library's own connection. -/
def initSaslConn (c : Connection) (env : NetSettings) : Connection :=
  if env.sasl then { c with authenticated := false } else c

/-- `bin_list_sasl_mechs`. -/
def binListSaslMechs (c : Connection) (env : NetSettings) (i : Input) : Connection :=
  if !env.sasl then c.writeBinError 0
  else if i.effect = .error then (c.initSaslConn env).writeBinError 0
  else (c.initSaslConn env).writeBinResponse

/-- The second `switch` of `dispatch_bin_command`. -/
def dispatchCommand (c : Connection) (env : NetSettings) (i : Input) : Connection :=
  match c.cmd with
  | .version | .noop =>
      if c.header.bare then c.writeBinResponse else c.handleBinaryProtocolError
  | .quit =>
      if c.header.bare then
        let c := { c.writeBinResponse with writeAndGo := .closing }
        if c.noreply then { c with state := .closing } else c
      else c.handleBinaryProtocolError
  | .saslListMechs =>
      if c.header.bare then c.binListSaslMechs env i else c.handleBinaryProtocolError
  | .unknown | .nread => c.writeBinError (toInt c.header.bodylen)
  | cmd =>
      match c.header.readsKey cmd with
      | some (next, extra) => c.binReadKey next extra i.memory
      | none => c.handleBinaryProtocolError

/-- `dispatch_bin_command`. -/
def dispatchBinCommand (c : Connection) (env : NetSettings) (i : Input) : Connection :=
  if env.sasl && !c.isAuthenticated then { c.writeBinError 0 with writeAndGo := .closing }
  else if c.header.keylen > keyMaxLength then
    { c with noreply := true }.handleBinaryProtocolError
  else { c with noreply := c.header.command.2 }.dispatchCommand env i

/-- An `item_alloc` that the log may have room for. -/
def allocates (env : NetSettings) (i : Input) (nkey flags : ℕ) (nbytes : ℤ) : Bool :=
  i.item && decide (allocTotal env.useCas nkey flags nbytes ≤ memlogDefaultSize)

/-- An upload of `vlen` bytes into a data area of `nbytes` bytes. -/
def upload (c : Connection) (next : BinSubstate) (vlen nbytes : ℤ) : Connection :=
  { c with
    cmd := if next = .readSetValue then .nread else c.cmd
    ritem := .item 0 nbytes
    rlbytes := vlen
    state := .nread
    substate := next }

/-- The body of `process_bin_update` and of `process_bin_append_prepend`, which differ in how they
come by `vlen` and the client flags. -/
def binStore (c : Connection) (env : NetSettings) (i : Input) (flags : ℕ) (vlen : ℤ) : Connection :=
  if allocates env i c.header.keylen flags (toInt (vlen + 2)) then
    c.upload .readSetValue vlen (toInt (vlen + 2))
  else if allocTotal env.useCas c.header.keylen flags (toInt (vlen + 2)) = 0 then
    { c.writeBinError vlen with writeAndGo := .swallow }
  else { c.outOfMemory with sbytes := vlen, writeAndGo := .swallow }

/-- `process_bin_update`. -/
def processBinUpdate (c : Connection) (env : NetSettings) (i : Input) : Connection :=
  c.binStore env i (bigEndian c.rbuf (c.rcurr - c.header.keylen - c.header.extlen) 4)
    c.header.updateVlen

/-- `process_bin_append_prepend`. -/
def processBinAppendPrepend (c : Connection) (env : NetSettings) (i : Input) : Connection :=
  c.binStore env i 0 c.header.appendVlen

/-- `process_bin_sasl_auth`. -/
def processBinSaslAuth (c : Connection) (env : NetSettings) (i : Input) : Connection :=
  let vlen := c.header.appendVlen
  if !env.sasl then c.writeBinError vlen
  else if c.header.keylen > maxSaslMechLen ∨ !allocates env i c.header.keylen 0 vlen then
    { c.writeBinError vlen with writeAndGo := .swallow }
  else c.upload .readingSaslAuthData vlen vlen

/-- `process_bin_complete_sasl_auth`. -/
def processBinCompleteSaslAuth (c : Connection) (env : NetSettings) (i : Input) : Connection :=
  let c := c.initSaslConn env
  match i.sasl with
  | .ok => { c with authenticated := true }.writeBinResponse
  | .more => { c with state := .mwrite, writeAndGo := .newCmd }
  | .fail => c.writeBinError 0

/-- `complete_nread_binary`; the connection of a failed assertion is gone. -/
def completeNreadBinary (c : Connection) (env : NetSettings) (i : Input) : Connection :=
  match c.substate with
  | .readingSetHeader =>
      if c.cmd = .append ∨ c.cmd = .prepend then c.processBinAppendPrepend env i
      else c.processBinUpdate env i
  | .readingSaslAuth => c.processBinSaslAuth env i
  | .readingSaslAuthData => c.processBinCompleteSaslAuth env i
  | .noState => { c with state := .closed }
  | _ => c.finish i.effect

/-! ## ASCII requests -/

/-- `process_update_command`. -/
def processUpdateCommand (c : Connection) (env : NetSettings) (i : Input)
    (tokens : List (List UInt8)) (handleCas : Bool) : Connection :=
  let c := { c with noreply := c.noreply || saysNoreply tokens }
  match parseUpdate tokens handleCas with
  | none => c.outString
  | some line =>
      if allocates env i line.key.length line.flags (line.vlen + 2) then
        { c with ritem := .item 0 (line.vlen + 2), rlbytes := line.vlen + 2, state := .nread }
      else { c.outString with writeAndGo := .swallow, sbytes := line.vlen + 2 }

/-- `process_command`. -/
def processCommand (c : Connection) (env : NetSettings) (i : Input) (text : List UInt8) :
    Connection :=
  if !i.msghdr then c.outOfMemory
  else
    match updateKind (tokenizeCommand text) with
    | some handleCas => c.processUpdateCommand env i (tokenizeCommand text) handleCas
    | none => c.finish i.effect

/-- `complete_nread_ascii`. -/
def completeNreadAscii (c : Connection) : Connection := c.outString

/-! ## `try_read_command` -/

/-- The bytes from `rcurr` to the end of the data. -/
def pending (c : Connection) : List UInt8 :=
  (List.range c.rbytes.toNat).map fun k : ℕ => c.rbuf (c.rcurr + k)

/-- The test for a large multiget. -/
def longGet (c : Connection) : Bool :=
  let spaces := (c.pending.takeWhile (· == 32)).length
  let text := c.pending.drop spaces
  spaces ≤ 100 && (text.take 4 == "get ".toUTF8.toList || text.take 5 == "gets ".toUTF8.toList)

/-- The text of a line of `n` bytes before its line feed, without a carriage return. -/
def lineText (c : Connection) (n : ℕ) : List UInt8 :=
  let text := c.pending.take n
  if n > 1 ∧ text.getLast? = some 13 then text.dropLast else text

/-- The protocol after the first byte has been seen. -/
def negotiate (c : Connection) : Connection :=
  if c.protocol = .negotiating then
    { c with protocol := if c.rbuf 0 == 0x80 then .binary else .ascii }
  else c

/-- The binary half of `try_read_command`. -/
def tryReadBinary (c : Connection) (env : NetSettings) (i : Input) : Connection × Bool :=
  if c.rbytes < sizeofBinaryHeader then (c, false)
  else
    let c := { c with header := binaryHeaderAt c.rbuf c.rcurr }
    if c.header.magic ≠ 0x80 then ({ c with state := .closing }, true)
    else if !i.msghdr then (c.outOfMemory, false)
    else
      let c := { c with cmd := c.header.command.1 }.dispatchBinCommand env i
      ({ c with rbytes := c.rbytes - sizeofBinaryHeader, rcurr := c.rcurr + sizeofBinaryHeader },
        true)

/-- The ASCII half of `try_read_command`. -/
def tryReadAscii (c : Connection) (env : NetSettings) (i : Input) : Connection × Bool :=
  match c.pending.findIdx? (· == 10) with
  | none =>
      if c.rbytes > 1024 ∧ !c.longGet then ({ c with state := .closing }, true) else (c, false)
  | some n =>
      let text := c.lineText n
      let c := { c with rbuf := Function.update c.rbuf (c.rcurr + text.length) 0 }
      let c := c.processCommand env i text
      ({ c with rbytes := c.rbytes - (n + 1), rcurr := c.rcurr + (n + 1) }, true)

/-- `try_read_command`. -/
def tryReadCommand (c : Connection) (env : NetSettings) (i : Input) : Connection × Bool :=
  let c := c.negotiate
  if c.protocol = .binary then c.tryReadBinary env i else c.tryReadAscii env i

/-! ## `drive_machine` -/

/-- `reset_cmd_handler`. -/
def resetCmdHandler (c : Connection) (memory : Bool) : Connection :=
  let c := { c with substate := .noState }.connShrink memory
  if c.rbytes > 0 then { c with state := .parseCmd } else { c with state := .waiting }

/-- `ritem += n`. -/
def advance (c : Connection) (n : ℤ) : RItem :=
  match c.ritem with
  | .null => .null
  | .buffer off => .buffer (off + n)
  | .item pos nbytes => .item (pos + n) nbytes

/-- The bytes `conn_nread` finds in the buffer, copied to `ritem`. -/
def copyLeftovers (c : Connection) : Connection :=
  if c.rbytes > 0 then
    let tocopy := if c.rbytes > c.rlbytes then c.rlbytes else c.rbytes
    { c with
      rbuf := match c.ritem with
        | .buffer off => fun x =>
            if 0 ≤ x - off ∧ x - off < tocopy then c.rbuf (c.rcurr + (x - off)) else c.rbuf x
        | _ => c.rbuf
      ritem := c.advance tocopy
      rlbytes := c.rlbytes - tocopy
      rcurr := c.rcurr + tocopy
      rbytes := c.rbytes - tocopy }
  else c

/-- Where the read of `conn_nread` puts its bytes. -/
def fillItem (c : Connection) (bytes : List UInt8) : Connection :=
  match c.ritem with
  | .buffer off => c.store off bytes
  | _ => { c with received := c.received + bytes.length }

/-- The first read of an input. -/
def firstRead (i : Input) : ReadAnswer := (i.reads.head?.map (·.2)).getD .again

/-- A read that gave no bytes. -/
def noBytes (c : Connection) (i : Input) (answer : ReadAnswer) : Connection :=
  if answer = .again ∧ i.event then c else { c with state := .closing }

/-- The read of `conn_nread`. -/
def readItem (c : Connection) (i : Input) : Connection :=
  match firstRead i with
  | .data bytes =>
      let got := readUpTo c.rlbytes bytes
      if got = [] then { c with state := .closing }
      else
        { c.fillItem got with
          rcurr := if c.ritem = .buffer c.rcurr then c.rcurr + got.length else c.rcurr
          ritem := c.advance got.length
          rlbytes := c.rlbytes - got.length }
  | answer => c.noBytes i answer

/-- `conn_nread`. -/
def nread (c : Connection) (env : NetSettings) (i : Input) : Connection :=
  if c.rlbytes = 0 then
    if c.protocol = .binary then c.completeNreadBinary env i else c.completeNreadAscii
  else if c.rlbytes < 0 then { c with state := .closing }
  else
    let c := c.copyLeftovers
    if c.rlbytes = 0 then c else c.readItem i

/-- The bytes that `conn_nread` takes to `ritem`: the leftovers of the buffer and those of its read. -/
def arriving (c : Connection) (i : Input) : List UInt8 :=
  let leftovers := c.pending.take c.rlbytes.toNat
  if c.rlbytes ≤ leftovers.length then leftovers
  else
    match firstRead i with
    | .data bytes => leftovers ++ readUpTo (c.rlbytes - leftovers.length) bytes
    | _ => leftovers

/-- `conn_swallow`. -/
def swallow (c : Connection) (i : Input) : Connection :=
  if c.sbytes = 0 then { c with state := .newCmd }
  else if c.rbytes > 0 then
    let tocopy := if c.rbytes > c.sbytes then c.sbytes else c.rbytes
    { c with
      sbytes := c.sbytes - tocopy
      rcurr := c.rcurr + tocopy
      rbytes := c.rbytes - tocopy }
  else
    match firstRead i with
    | .data bytes =>
        let got := readUpTo (if c.rsize > c.sbytes then c.sbytes else c.rsize) bytes
        if got = [] then { c with state := .closing }
        else { c.store 0 got with sbytes := c.sbytes - got.length }
    | answer => c.noBytes i answer

/-- `conn_write` and `conn_mwrite`. -/
def transmit (c : Connection) (i : Input) : Connection :=
  match i.transmit with
  | .complete =>
      if c.state = .mwrite ∧ c.protocol ≠ .binary then { c with state := .newCmd }
      else { c with state := c.writeAndGo }
  | .incomplete | .softError => c
  | .hardError => { c with state := .closing }

/-- One turn of `drive_machine`. -/
def drive (c : Connection) (env : NetSettings) (i : Input) : Connection :=
  match c.state with
  | .waiting => if i.event then { c with state := .read } else { c with state := .closing }
  | .read => c.readNetwork i.reads
  | .parseCmd =>
      let (c, done) := c.tryReadCommand env i
      if done then c else { c with state := .waiting }
  | .newCmd =>
      if !i.yields then c.resetCmdHandler i.memory
      else if c.rbytes > 0 ∧ !i.event then { c with state := .closing }
      else c
  | .nread => c.nread env i
  | .swallow => c.swallow i
  | .write | .mwrite => c.transmit i
  | .closing => { c with state := .closed }
  | .closed | .watch => c

/-- `conn_new` on a zeroed `conn`. -/
def connNew (env : NetSettings) : Connection where
  state := .newCmd
  writeAndGo := .newCmd
  protocol := env.bindingProtocol
  substate := .noState
  authenticated := false
  noreply := false
  cmd := .nread
  header := ⟨0, 0, 0, 0, 0⟩
  rbuf := fun _ => 0
  rsize := dataBufferSize
  rcurr := 0
  rbytes := 0
  rlbytes := 0
  ritem := .null
  sbytes := 0
  received := 0
  repacks := 0

/-- `conn_new` on the `conn` of a closed connection, which keeps its buffer and `sbytes`. -/
def connReuse (c : Connection) (env : NetSettings) : Connection :=
  { connNew env with
    substate := c.substate
    header := c.header
    rbuf := c.rbuf
    rsize := c.rsize
    sbytes := c.sbytes
    received := c.received
    repacks := c.repacks + 1 }

/-- What happens to a `conn`: a turn of `drive_machine`, `conn_close_idle`, or its reuse. -/
inductive Event
  | turn (i : Input)
  | idle
  | reuse
deriving DecidableEq, Repr

/-- One event. -/
def handle (c : Connection) (env : NetSettings) : Event → Connection
  | .turn i => c.drive env i
  | .idle => if c.state = .newCmd ∨ c.state = .read then { c with state := .closing } else c
  | .reuse => if c.state = .closed then c.connReuse env else c

end Connection

end LogMemcached
