import LogMemcached.Network
import LogMemcached.Lib.Run

/-!
# The read buffer over whole runs

Every turn of `drive_machine` keeps `rcurr` and `rbytes` inside the buffer and moves forward in the
byte stream, as long as no binary request announces a negative value length.
-/

namespace LogMemcached

open Transition

namespace Connection

variable {c c' : Connection} {env : NetSettings} {i : Input}

/-! ## The invariant -/

/-- The place in the byte stream up to which the connection has consumed it. -/
def position (c : Connection) : ℤ := c.received - c.rbytes

/-- The data lie in the buffer, and a swallow is of a length. -/
structure Buffers (c : Connection) : Prop where
  size : dataBufferSize ≤ c.rsize
  low : 0 ≤ c.rcurr
  bytes : 0 ≤ c.rbytes
  high : c.rcurr + c.rbytes ≤ c.rsize
  skips : 0 ≤ c.sbytes
  resumes : c.writeAndGo ≠ .nread

/-- The `rlbytes` bytes from `ritem` lie in the read buffer or in the data area of the item. -/
def Targets (c : Connection) : Prop :=
  0 ≤ c.rlbytes ∧
    match c.ritem with
    | .null => c.rlbytes = 0
    | .buffer off => off = c.rcurr ∧ off + c.rlbytes ≤ c.rsize
    | .item pos nbytes => 0 ≤ pos ∧ pos + c.rlbytes ≤ nbytes

structure Inv (c : Connection) : Prop extends Buffers c where
  target : c.state = .nread → c.Targets

/-- No byte is consumed twice, and `rcurr` goes back only with the contents of the buffer. -/
def Forward (c c' : Connection) : Prop :=
  c.position ≤ c'.position ∧ (c'.repacks = c.repacks → c.rcurr ≤ c'.rcurr)

structure Turn (c c' : Connection) : Prop where
  inv : Inv c'
  forward : Forward c c'

theorem Forward.refl (c : Connection) : Forward c c := ⟨le_refl _, fun _ => le_refl _⟩

theorem Buffers.turn (h : Buffers c) {s : ConnState} (other : s ≠ .nread) :
    Turn c { c with state := s } :=
  ⟨⟨⟨h.size, h.low, h.bytes, h.high, h.skips, h.resumes⟩, fun at' => absurd at' other⟩,
    Forward.refl c⟩

/-! ## Responses -/

/-- What the functions that write a response do: they leave the buffer alone and do not go on to
read a data block. -/
structure Answers (c c' : Connection) : Prop where
  rsize : c'.rsize = c.rsize
  rcurr : c'.rcurr = c.rcurr
  rbytes : c'.rbytes = c.rbytes
  received : c'.received = c.received
  repacks : c'.repacks = c.repacks
  skips : 0 ≤ c.sbytes → 0 ≤ c'.sbytes
  state : c'.state ≠ .nread
  resumes : c.writeAndGo ≠ .nread → c'.writeAndGo ≠ .nread

theorem Answers.buffers (h : Answers c c') (inv : Buffers c) : Buffers c' where
  size := by rw [h.rsize]; exact inv.size
  low := by rw [h.rcurr]; exact inv.low
  bytes := by rw [h.rbytes]; exact inv.bytes
  high := by rw [h.rcurr, h.rbytes, h.rsize]; exact inv.high
  skips := h.skips inv.skips
  resumes := h.resumes inv.resumes

theorem Answers.turn (h : Answers c c') (inv : Buffers c) : Turn c c' where
  inv := { h.buffers inv with target := fun at' => absurd at' h.state }
  forward := by
    refine ⟨?_, fun _ => h.rcurr.ge⟩
    rw [position, position, h.received, h.rbytes]

theorem Answers.resume (h : Answers c c') (s : ConnState) (other : s ≠ .nread) :
    Answers c { c' with writeAndGo := s } :=
  { h with resumes := fun _ => other }

theorem Answers.swallows (h : Answers c c') {n : ℤ} (length : 0 ≤ n) :
    Answers c { c' with sbytes := n, writeAndGo := .swallow } :=
  { h with skips := fun _ => length, resumes := fun _ => nofun }

theorem outString_answers (c : Connection) : Answers c c.outString := by
  unfold outString
  split_ifs
  · exact ⟨rfl, rfl, rfl, rfl, rfl, id, nofun, id⟩
  · exact ⟨rfl, rfl, rfl, rfl, rfl, id, nofun, fun _ => nofun⟩

theorem writeBinError_answers (c : Connection) (n : ℤ) : Answers c (c.writeBinError n) := by
  unfold writeBinError
  split_ifs with positive
  · exact ⟨rfl, rfl, rfl, rfl, rfl, fun _ => positive.le, nofun, fun _ => nofun⟩
  · exact ⟨rfl, rfl, rfl, rfl, rfl, id, nofun, fun _ => nofun⟩

theorem writeBinResponse_answers (c : Connection) : Answers c c.writeBinResponse := by
  unfold writeBinResponse
  split_ifs
  · exact ⟨rfl, rfl, rfl, rfl, rfl, id, nofun, fun _ => nofun⟩
  · exact ⟨rfl, rfl, rfl, rfl, rfl, id, nofun, id⟩

theorem outOfMemory_answers (c : Connection) : Answers c c.outOfMemory := by
  unfold outOfMemory
  split_ifs
  · exact c.writeBinError_answers 0
  · exact c.outString_answers

theorem handleBinaryProtocolError_answers (c : Connection) :
    Answers c c.handleBinaryProtocolError :=
  (c.writeBinError_answers 0).resume .closing nofun

theorem finish_answers (c : Connection) (effect : ConnEffect) : Answers c (c.finish effect) := by
  cases effect with
  | reply noreply =>
    have h := outString_answers { c with noreply := c.noreply || noreply }
    exact ⟨h.rsize, h.rcurr, h.rbytes, h.received, h.repacks, h.skips, h.state, h.resumes⟩
  | response => exact c.writeBinResponse_answers
  | error => exact c.writeBinError_answers 0
  | values | text =>
    exact ⟨rfl, rfl, rfl, rfl, rfl, id, nofun, fun _ => nofun⟩
  | silent | quit | watch => exact ⟨rfl, rfl, rfl, rfl, rfl, id, nofun, id⟩

/-- `c->authenticated` has no part in a response. -/
theorem Answers.of_authenticated {b : Bool} (h : Answers { c with authenticated := b } c') :
    Answers c c' :=
  ⟨h.rsize, h.rcurr, h.rbytes, h.received, h.repacks, h.skips, h.state, h.resumes⟩

theorem Answers.of_initSaslConn {env : NetSettings} (h : Answers (c.initSaslConn env) c') :
    Answers c c' := by
  unfold initSaslConn at h
  split_ifs at h
  · exact h.of_authenticated
  · exact h

theorem binListSaslMechs_answers (c : Connection) (env : NetSettings) (i : Input) :
    Answers c (c.binListSaslMechs env i) := by
  unfold binListSaslMechs
  split_ifs
  · exact c.writeBinError_answers 0
  · exact (writeBinError_answers _ 0).of_initSaslConn
  · exact (writeBinResponse_answers _).of_initSaslConn

theorem processBinCompleteSaslAuth_answers (c : Connection) (env : NetSettings) (i : Input) :
    Answers c (c.processBinCompleteSaslAuth env i) := by
  unfold processBinCompleteSaslAuth
  apply Answers.of_initSaslConn
  dsimp only
  split
  · exact (writeBinResponse_answers _).of_authenticated
  · exact ⟨rfl, rfl, rfl, rfl, rfl, id, nofun, fun _ => nofun⟩
  · exact writeBinError_answers _ 0

/-! ## Moving the buffer -/

@[simp] theorem repack_rcurr (c : Connection) : c.repack.rcurr = 0 := by
  unfold repack
  split_ifs with start
  · exact start
  · rfl

@[simp] theorem repack_rsize (c : Connection) : c.repack.rsize = c.rsize := by
  unfold repack; split_ifs <;> rfl

@[simp] theorem repack_rbytes (c : Connection) : c.repack.rbytes = c.rbytes := by
  unfold repack; split_ifs <;> rfl

@[simp] theorem repack_received (c : Connection) : c.repack.received = c.received := by
  unfold repack; split_ifs <;> rfl

@[simp] theorem repack_sbytes (c : Connection) : c.repack.sbytes = c.sbytes := by
  unfold repack; split_ifs <;> rfl

@[simp] theorem repack_writeAndGo (c : Connection) : c.repack.writeAndGo = c.writeAndGo := by
  unfold repack; split_ifs <;> rfl

@[simp] theorem repack_state (c : Connection) : c.repack.state = c.state := by
  unfold repack; split_ifs <;> rfl

@[simp] theorem repack_rlbytes (c : Connection) : c.repack.rlbytes = c.rlbytes := by
  unfold repack; split_ifs <;> rfl

theorem repack_start (c : Connection) (same : c.repack.repacks = c.repacks) : c.rcurr = 0 := by
  unfold repack at same
  split_ifs at same with start
  · exact start
  · exact absurd same (Nat.succ_ne_self _)

theorem Buffers.repack (h : Buffers c) : Buffers c.repack where
  size := by simpa using h.size
  low := by simp
  bytes := by simpa using h.bytes
  high := by
    have := h.low
    have := h.high
    rw [repack_rcurr, repack_rbytes, repack_rsize]
    omega
  skips := by simpa using h.skips
  resumes := by simpa using h.resumes

theorem repack_forward (c : Connection) : Forward c c.repack := by
  refine ⟨by simp [position], fun same => ?_⟩
  rw [repack_rcurr, c.repack_start same]

theorem Buffers.connShrink (h : Buffers c) (memory : Bool) :
    Buffers (c.connShrink memory) ∧ Forward c (c.connShrink memory) := by
  unfold Connection.connShrink
  split_ifs with long given
  · -- the buffer shrinks to `DATA_BUFFER_SIZE`, which holds what is left
    refine ⟨{ h.repack with size := le_refl _, high := ?_ }, repack_forward c⟩
    show c.repack.rcurr + c.repack.rbytes ≤ dataBufferSize
    rw [repack_rcurr, repack_rbytes]
    omega
  · exact ⟨h.repack, repack_forward c⟩
  · exact ⟨h, Forward.refl c⟩

theorem Buffers.resetCmdHandler (h : Buffers c) (memory : Bool) :
    Turn c (c.resetCmdHandler memory) := by
  have reset : Buffers { c with substate := .noState } :=
    ⟨h.size, h.low, h.bytes, h.high, h.skips, h.resumes⟩
  obtain ⟨shrunk, forward⟩ := reset.connShrink memory
  unfold Connection.resetCmdHandler
  dsimp only
  split_ifs
  · exact ⟨(shrunk.turn (by decide)).inv, forward⟩
  · exact ⟨(shrunk.turn (by decide)).inv, forward⟩

/-! ## Reading -/

/-- What the loop of `try_read_network` does to a repacked buffer. -/
structure Fills (c c' : Connection) : Prop where
  buffers : Buffers c'
  start : c'.rcurr = 0
  repacks : c'.repacks = c.repacks
  position : c.position ≤ c'.position
  state : c'.state ≠ .nread

theorem Fills.trans {c₁ c₂ c₃ : Connection} (h : Fills c₁ c₂) (h' : Fills c₂ c₃) : Fills c₁ c₃ :=
  ⟨h'.buffers, h'.start, h'.repacks.trans h.repacks, h.position.trans h'.position, h'.state⟩

theorem length_readUpTo (n : ℤ) (bytes : List UInt8) : (readUpTo n bytes).length ≤ n.toNat := by
  rw [readUpTo, List.length_take]
  exact min_le_left _ _

theorem Fills.append (h : Buffers c) (start : c.rcurr = 0) (state : c.state ≠ .nread)
    {bytes : List UInt8} (fits : bytes.length ≤ (c.rsize - c.rbytes).toNat)
    (some : bytes ≠ []) :
    Fills c { c.store c.rbytes bytes with rbytes := c.rbytes + bytes.length } where
  buffers :=
    { size := h.size
      low := h.low
      bytes := Int.add_nonneg h.bytes (Int.natCast_nonneg _)
      high := by
        have := List.length_pos_iff.2 some
        show c.rcurr + (c.rbytes + bytes.length) ≤ c.rsize
        omega
      skips := h.skips
      resumes := h.resumes }
  start := start
  repacks := rfl
  position := by
    show c.received - c.rbytes ≤ c.received + bytes.length - (c.rbytes + bytes.length)
    omega
  state := state

theorem readLoop_fills (reads : List (Bool × ReadAnswer)) (allocs : ℕ) (gotdata : TryRead)
    (h : Buffers c) (start : c.rcurr = 0) (state : c.state ≠ .nread) :
    Fills c (readLoop reads allocs gotdata c).1 := by
  induction reads generalizing c allocs gotdata with
  | nil => exact ⟨h, start, rfl, le_refl _, state⟩
  | cons turn rest ih =>
    obtain ⟨memory, answer⟩ := turn
    have same : Fills c c := ⟨h, start, rfl, le_refl _, state⟩
    unfold readLoop
    by_cases full : c.rbytes ≥ c.rsize ∧ allocs = 4
    · rw [if_pos full]
      exact same
    rw [if_neg full]
    by_cases failed : c.rbytes ≥ c.rsize ∧ ¬(memory ∧ c.rsize * 2 < 2 ^ 31)
    · -- what was read is dropped with the connection
      rw [if_pos failed]
      have dropped : Buffers { c with rbytes := 0 } :=
        ⟨h.size, h.low, le_refl _, by have := h.bytes; have := h.high; show c.rcurr + 0 ≤ c.rsize; omega,
          h.skips, h.resumes⟩
      have answers := (outOfMemory_answers { c with rbytes := 0 }).resume .closing nofun
      refine ⟨answers.buffers dropped, answers.rcurr.trans start, answers.repacks, ?_,
        answers.state⟩
      have received := answers.received
      have rbytes := answers.rbytes
      have := h.bytes
      simp only [Connection.position] at *
      rw [received, rbytes]
      omega
    rw [if_neg failed]
    -- the buffer with room for a read
    obtain ⟨d, filled, eq⟩ : ∃ d, Fills c d ∧
        (if c.rbytes ≥ c.rsize then { c with rcurr := 0, rsize := c.rsize * 2 } else c) = d := by
      refine ⟨_, ?_, rfl⟩
      split_ifs with full'
      · refine ⟨⟨?_, le_refl _, h.bytes, ?_, h.skips, h.resumes⟩, rfl, rfl, le_refl _, state⟩
        · show dataBufferSize ≤ c.rsize * 2
          have := h.size
          unfold dataBufferSize at *
          omega
        · have := h.size
          have := h.high
          show 0 + c.rbytes ≤ c.rsize * 2
          unfold dataBufferSize at *
          omega
      · exact same
    dsimp only
    rw [eq]
    cases answer with
    | again => exact filled
    | error => exact filled
    | data bytes =>
      dsimp only
      by_cases empty : readUpTo (d.rsize - d.rbytes) bytes = []
      · rw [if_pos empty]
        exact filled
      rw [if_neg empty]
      have appended := Fills.append filled.buffers filled.start filled.state
        (length_readUpTo (d.rsize - d.rbytes) bytes) empty
      by_cases more : ((readUpTo (d.rsize - d.rbytes) bytes).length : ℤ) = d.rsize - d.rbytes
      · rw [if_pos more]
        exact filled.trans (appended.trans (ih _ _ appended.buffers appended.start appended.state))
      · rw [if_neg more]
        exact filled.trans appended

theorem Buffers.readNetwork (h : Buffers c) (state : c.state ≠ .nread)
    (reads : List (Bool × ReadAnswer)) : Turn c (c.readNetwork reads) := by
  have filled := readLoop_fills reads 0 .noDataReceived h.repack (repack_rcurr c)
    (by rwa [repack_state])
  have forward : Forward c (c.tryReadNetwork reads).1 := by
    refine ⟨(repack_forward c).1.trans filled.position, fun same => ?_⟩
    rw [tryReadNetwork, filled.start, c.repack_start (filled.repacks.symm.trans same)]
  have buffers : Buffers (c.tryReadNetwork reads).1 := filled.buffers
  have state' : (c.tryReadNetwork reads).1.state ≠ .nread := filled.state
  unfold Connection.readNetwork
  generalize c.tryReadNetwork reads = r at forward buffers state'
  obtain ⟨d, result⟩ := r
  cases result with
  | noDataReceived => exact ⟨(buffers.turn (by decide)).inv, forward⟩
  | dataReceived => exact ⟨(buffers.turn (by decide)).inv, forward⟩
  | error => exact ⟨(buffers.turn (by decide)).inv, forward⟩
  | memoryError => exact ⟨{ buffers with target := fun at' => absurd at' state' }, forward⟩

/-! ## Requests -/

/-- What the parser of a line or of a header leaves: the data are where they were, or moved to the
start of the buffer, and a key is read from behind the header. -/
structure Parses (c c' : Connection) : Prop where
  buffers : Buffers c'
  rbytes : c'.rbytes = c.rbytes
  received : c'.received = c.received
  rcurr : c'.repacks = c.repacks → c'.rcurr = c.rcurr
  target : c'.state = .nread →
    0 ≤ c'.rlbytes ∧ c'.ritem = .buffer (c'.rcurr + sizeofBinaryHeader) ∧
      c'.rcurr + sizeofBinaryHeader + c'.rlbytes ≤ c'.rsize

theorem Answers.parses (h : Answers c c') (buffers : Buffers c) : Parses c c' :=
  ⟨h.buffers buffers, h.rbytes, h.received, fun _ => h.rcurr, fun at' => absurd at' h.state⟩

theorem growSize_of_le {size nsize : ℤ} (fits : size ≤ nsize) (fuel : ℕ) :
    growSize fuel size nsize = nsize := by
  cases fuel with
  | zero => rfl
  | succ fuel => rw [growSize, if_neg (by omega)]

/-- The extras `bin_read_key` is asked for are short. -/
theorem readsKey_extra {h : BinaryHeader} {cmd : BinCmd} {next : BinSubstate} {extra : ℕ}
    (reads : h.readsKey cmd = some (next, extra)) : extra ≤ 20 := by
  unfold BinaryHeader.readsKey at reads
  split at reads <;>
    first
    | cases reads
    | (split_ifs at reads with checked; cases reads; omega)

theorem Buffers.binReadKey (h : Buffers c) (next : BinSubstate) {extra : ℕ} (few : extra ≤ 20)
    (short : c.header.keylen ≤ keyMaxLength) (memory : Bool) :
    Parses c (c.binReadKey next extra memory) := by
  have size := h.size
  unfold dataBufferSize at size
  unfold keyMaxLength at short
  -- a key always fits into the smallest buffer, so that the buffer never grows here
  have fits : growSize 32 ((c.header.keylen + extra : ℤ) + sizeofBinaryHeader) c.rsize = c.rsize :=
    growSize_of_le (by unfold sizeofBinaryHeader; omega) 32
  unfold Connection.binReadKey
  dsimp only
  rw [fits]
  split_ifs with crowded failed
  · exact absurd rfl failed.1
  · have moved : Buffers { c with substate := next, rlbytes := c.header.keylen + extra } :=
      ⟨h.size, h.low, h.bytes, h.high, h.skips, h.resumes⟩
    have packed := moved.repack
    refine ⟨⟨packed.size, packed.low, packed.bytes, packed.high, packed.skips, packed.resumes⟩,
      repack_rbytes _, repack_received _, fun same => ?_, fun _ => ⟨?_, rfl, ?_⟩⟩
    · exact (repack_rcurr _).trans (repack_start _ same).symm
    · show 0 ≤ (Connection.repack _).rlbytes
      rw [repack_rlbytes]
      dsimp only
      omega
    · show (Connection.repack _).rcurr + _ + (Connection.repack _).rlbytes ≤
        (Connection.repack _).rsize
      rw [repack_rcurr, repack_rlbytes, repack_rsize]
      dsimp only
      unfold sizeofBinaryHeader
      omega
  · refine ⟨⟨h.size, h.low, h.bytes, h.high, h.skips, h.resumes⟩, rfl, rfl, fun _ => rfl,
      fun _ => ⟨?_, rfl, ?_⟩⟩
    · show (0 : ℤ) ≤ c.header.keylen + extra
      omega
    · show c.rcurr + sizeofBinaryHeader + (c.header.keylen + extra) ≤ c.rsize
      omega

theorem Buffers.dispatchCommand (h : Buffers c) (short : c.header.keylen ≤ keyMaxLength)
    (env : NetSettings) (i : Input) : Parses c (c.dispatchCommand env i) := by
  have error : Parses c c.handleBinaryProtocolError :=
    c.handleBinaryProtocolError_answers.parses h
  have response : Parses c c.writeBinResponse := c.writeBinResponse_answers.parses h
  unfold Connection.dispatchCommand
  split
  · split_ifs
    · exact response
    · exact error
  · split_ifs
    · exact response
    · exact error
  · dsimp only
    split_ifs
    · exact Answers.parses
        { c.writeBinResponse_answers with state := nofun, resumes := fun _ => nofun } h
    · exact (c.writeBinResponse_answers.resume .closing nofun).parses h
    · exact error
  · split_ifs
    · exact (c.binListSaslMechs_answers env i).parses h
    · exact error
  · exact (c.writeBinError_answers _).parses h
  · exact (c.writeBinError_answers _).parses h
  · split
    · rename_i next extra reads
      exact h.binReadKey next (readsKey_extra reads) short i.memory
    · exact error

theorem Parses.of_noreply {b : Bool} (h : Parses { c with noreply := b } c') : Parses c c' :=
  ⟨h.buffers, h.rbytes, h.received, h.rcurr, h.target⟩

theorem Buffers.dispatchBinCommand (h : Buffers c) (env : NetSettings) (i : Input) :
    Parses c (c.dispatchBinCommand env i) := by
  have quiet (b : Bool) : Buffers { c with noreply := b } :=
    ⟨h.size, h.low, h.bytes, h.high, h.skips, h.resumes⟩
  unfold Connection.dispatchBinCommand
  split_ifs with refused long
  · exact ((c.writeBinError_answers 0).resume .closing nofun).parses h
  · exact ((handleBinaryProtocolError_answers _).parses (quiet true)).of_noreply
  · exact ((quiet c.header.command.2).dispatchCommand (not_lt.1 long) env i).of_noreply

theorem Buffers.tryReadBinary (h : Buffers c) (state : c.state ≠ .nread) (env : NetSettings)
    (i : Input) : Turn c (c.tryReadBinary env i).1 := by
  have header (b : BinaryHeader) : Buffers { c with header := b } :=
    ⟨h.size, h.low, h.bytes, h.high, h.skips, h.resumes⟩
  unfold Connection.tryReadBinary
  dsimp only
  split_ifs with short magic broken
  · exact ⟨{ h with target := fun at' => absurd at' state }, Forward.refl c⟩
  · exact ⟨((header (binaryHeaderAt c.rbuf c.rcurr)).turn (s := .closing) nofun).inv, Forward.refl c⟩
  · have turn := (outOfMemory_answers _).turn (header (binaryHeaderAt c.rbuf c.rcurr))
    exact ⟨turn.inv, turn.forward⟩
  · set d : Connection := { c with
      header := binaryHeaderAt c.rbuf c.rcurr
      cmd := (binaryHeaderAt c.rbuf c.rcurr).command.1 } with hd
    have buffers : Buffers d := ⟨h.size, h.low, h.bytes, h.high, h.skips, h.resumes⟩
    have parses := buffers.dispatchBinCommand env i
    generalize d.dispatchBinCommand env i = e at parses
    have enough : sizeofBinaryHeader ≤ c.rbytes := not_lt.1 short
    have rbytes : e.rbytes = c.rbytes := parses.rbytes
    have received : e.received = c.received := parses.received
    have inside := parses.buffers
    unfold sizeofBinaryHeader at enough
    refine ⟨⟨⟨inside.size, ?_, ?_, ?_, inside.skips, inside.resumes⟩, fun at' => ?_⟩, ?_, fun same => ?_⟩
    · have := inside.low
      show 0 ≤ e.rcurr + 24
      omega
    · show 0 ≤ e.rbytes - 24
      omega
    · have := inside.high
      show e.rcurr + 24 + (e.rbytes - 24) ≤ e.rsize
      omega
    · obtain ⟨length, at'', fits⟩ := parses.target at'
      refine ⟨length, ?_⟩
      rw [at'']
      exact ⟨rfl, fits⟩
    · show c.received - c.rbytes ≤ e.received - (e.rbytes - 24)
      omega
    · have stays : e.rcurr = c.rcurr := parses.rcurr same
      show c.rcurr ≤ e.rcurr + 24
      omega

/-! ## Uploads -/

/-- What the functions do that end a request or begin to read its data block into an item. -/
structure Uploads (c c' : Connection) : Prop where
  rsize : c'.rsize = c.rsize
  rcurr : c'.rcurr = c.rcurr
  rbytes : c'.rbytes = c.rbytes
  received : c'.received = c.received
  repacks : c'.repacks = c.repacks
  skips : 0 ≤ c.sbytes → 0 ≤ c'.sbytes
  resumes : c.writeAndGo ≠ .nread → c'.writeAndGo ≠ .nread
  target : c'.state = .nread →
    0 ≤ c'.rlbytes ∧ ∃ nbytes, c'.ritem = .item 0 nbytes ∧ c'.rlbytes ≤ nbytes

theorem Answers.uploads (h : Answers c c') : Uploads c c' :=
  { h with target := fun at' => absurd at' h.state }

theorem Uploads.targets (h : Uploads c c') (at' : c'.state = .nread) : c'.Targets := by
  obtain ⟨length, nbytes, item, fits⟩ := h.target at'
  refine ⟨length, ?_⟩
  rw [item]
  exact ⟨le_refl _, by omega⟩

theorem Uploads.turn (h : Uploads c c') (buffers : Buffers c) : Turn c c' where
  inv :=
    { size := by rw [h.rsize]; exact buffers.size
      low := by rw [h.rcurr]; exact buffers.low
      bytes := by rw [h.rbytes]; exact buffers.bytes
      high := by rw [h.rcurr, h.rbytes, h.rsize]; exact buffers.high
      skips := h.skips buffers.skips
      resumes := h.resumes buffers.resumes
      target := h.targets }
  forward := by
    refine ⟨?_, fun _ => h.rcurr.ge⟩
    rw [position, position, h.received, h.rbytes]

theorem upload_uploads (c : Connection) (next : BinSubstate) {vlen nbytes : ℤ} (length : 0 ≤ vlen)
    (fits : vlen ≤ nbytes) : Uploads c (c.upload next vlen nbytes) :=
  ⟨rfl, rfl, rfl, rfl, rfl, id, id, fun _ => ⟨length, nbytes, rfl, fits⟩⟩

/-- When the log has room for the record, the sum `vlen + 2` did not overflow. -/
theorem le_toInt_of_allocTotal {useCas : Bool} {nkey flags : ℕ} {vlen : ℤ} (length : 0 ≤ vlen)
    (small : vlen < 2 ^ 31)
    (room : allocTotal useCas nkey flags (toInt (vlen + 2)) ≤ memlogDefaultSize) :
    vlen ≤ toInt (vlen + 2) := by
  by_cases fits : vlen + 2 < 2 ^ 31
  · rw [toInt, Int.bmod_eq_of_le (by omega) (by omega)]
    omega
  · -- a negative length asks for nearly `2 ^ 64` bytes
    have wrapped : toInt (vlen + 2) = vlen + 2 - 2 ^ 32 := by
      rw [toInt, Int.bmod_def]
      split_ifs <;> omega
    rw [wrapped] at room
    have suffix := Nat.mod_lt (suffixText flags (vlen + 2 - 2 ^ 32)).length (by decide : 256 > 0)
    have key := Nat.mod_lt (nkey + 1) (by decide : 256 > 0)
    unfold allocTotal itemMakeHeader sizeofItemData memlogDefaultSize at room
    dsimp only at room
    split_ifs at room <;> omega

theorem toInt_lt (z : ℤ) : toInt z < 2 ^ 31 := by
  have := Int.bmod_lt (x := z) (m := 2 ^ 32) (by decide)
  unfold toInt
  omega

theorem binStore_uploads (c : Connection) (env : NetSettings) (i : Input) (flags : ℕ) {vlen : ℤ}
    (length : 0 ≤ vlen) (small : vlen < 2 ^ 31) : Uploads c (c.binStore env i flags vlen) := by
  unfold binStore
  split_ifs with found empty
  · unfold allocates at found
    rw [Bool.and_eq_true, decide_eq_true_iff] at found
    exact c.upload_uploads _ length (le_toInt_of_allocTotal length small found.2)
  · exact ((c.writeBinError_answers vlen).resume .swallow nofun).uploads
  · exact (c.outOfMemory_answers.swallows length).uploads

theorem processBinSaslAuth_uploads (c : Connection) (env : NetSettings) (i : Input)
    (length : 0 ≤ c.header.appendVlen) : Uploads c (c.processBinSaslAuth env i) := by
  unfold processBinSaslAuth
  dsimp only
  split_ifs
  · exact (c.writeBinError_answers _).uploads
  · exact ((c.writeBinError_answers _).resume .swallow nofun).uploads
  · exact c.upload_uploads _ length (le_refl _)

def announced (c : Connection) : Option ℤ :=
  match c.substate with
  | .readingSetHeader =>
      some (if c.cmd = .append ∨ c.cmd = .prepend then c.header.appendVlen
        else c.header.updateVlen)
  | .readingSaslAuth => some c.header.appendVlen
  | _ => none

theorem completeNreadBinary_uploads (c : Connection) (env : NetSettings) (i : Input)
    (length : ∀ v ∈ c.announced, 0 ≤ v) : Uploads c (c.completeNreadBinary env i) := by
  unfold completeNreadBinary
  split
  · rename_i header
    rw [announced, header] at length
    split_ifs with joins
    · exact c.binStore_uploads env i _ (length _ (by rw [if_pos joins]; rfl)) (toInt_lt _)
    · exact c.binStore_uploads env i _ (length _ (by rw [if_neg joins]; rfl)) (toInt_lt _)
  · rename_i header
    rw [announced, header] at length
    exact c.processBinSaslAuth_uploads env i (length _ rfl)
  · exact (c.processBinCompleteSaslAuth_answers env i).uploads
  · exact ⟨rfl, rfl, rfl, rfl, rfl, id, id, nofun⟩
  · exact (c.finish_answers _).uploads

theorem parseUpdate_bounds {tokens : List (List UInt8)} {handleCas : Bool} {line : UpdateLine}
    (parsed : parseUpdate tokens handleCas = some line) :
    line.key.length ≤ keyMaxLength ∧ line.flags < 2 ^ 32 ∧ 0 ≤ line.vlen ∧
      line.vlen ≤ 2 ^ 31 - 3 := by
  unfold parseUpdate at parsed
  split at parsed
  · split_ifs at parsed with long
    simp only [Option.bind_eq_bind, Option.bind_eq_some_iff, safeStrtoul,
      Option.map_eq_some_iff] at parsed
    obtain ⟨_, ⟨flags, -, rfl⟩, exptime, -, vlen, -, cas, -, last⟩ := parsed
    split_ifs at last with bad
    cases last
    refine ⟨not_lt.1 long, Nat.mod_lt _ (by decide), ?_⟩
    dsimp only
    omega
  · cases parsed

theorem parseUpdate_vlen {tokens : List (List UInt8)} {handleCas : Bool} {line : UpdateLine}
    (parsed : parseUpdate tokens handleCas = some line) : 0 ≤ line.vlen :=
  (parseUpdate_bounds parsed).2.2.1

theorem processUpdateCommand_uploads (c : Connection) (env : NetSettings) (i : Input)
    (tokens : List (List UInt8)) (handleCas : Bool) :
    Uploads c (c.processUpdateCommand env i tokens handleCas) := by
  set d : Connection := { c with noreply := c.noreply || saysNoreply tokens } with hd
  have answers : Answers c d.outString :=
    let h := d.outString_answers
    ⟨h.rsize, h.rcurr, h.rbytes, h.received, h.repacks, h.skips, h.state, h.resumes⟩
  unfold processUpdateCommand
  dsimp only
  rw [← hd]
  split
  · exact answers.uploads
  · rename_i line parsed
    have length := parseUpdate_vlen parsed
    split_ifs
    · refine ⟨rfl, rfl, rfl, rfl, rfl, id, id, fun _ => ⟨?_, _, rfl, le_refl _⟩⟩
      show 0 ≤ line.vlen + 2
      omega
    · exact (answers.swallows (by omega)).uploads

theorem processCommand_uploads (c : Connection) (env : NetSettings) (i : Input)
    (text : List UInt8) : Uploads c (c.processCommand env i text) := by
  unfold processCommand
  split_ifs
  · exact c.outOfMemory_answers.uploads
  · split
    · exact c.processUpdateCommand_uploads env i _ _
    · exact (c.finish_answers _).uploads

theorem findIdx_pending {n : ℕ} (found : c.pending.findIdx? (· == 10) = some n) :
    (n : ℤ) + 1 ≤ c.rbytes := by
  have bound := (List.findIdx?_eq_some_iff_getElem.1 found).1
  rw [pending, List.length_map, List.length_range] at bound
  omega

theorem Buffers.tryReadAscii (h : Buffers c) (state : c.state ≠ .nread) (env : NetSettings)
    (i : Input) : Turn c (c.tryReadAscii env i).1 := by
  unfold Connection.tryReadAscii
  split
  · split_ifs
    · exact h.turn nofun
    · exact ⟨{ h with target := fun at' => absurd at' state }, Forward.refl c⟩
  · rename_i n found
    have inside := findIdx_pending found
    dsimp only
    set d : Connection :=
      { c with rbuf := Function.update c.rbuf (c.rcurr + (c.lineText n).length) 0 }
    have buffers : Buffers d := ⟨h.size, h.low, h.bytes, h.high, h.skips, h.resumes⟩
    have uploads := d.processCommand_uploads env i (c.lineText n)
    have turn := uploads.turn buffers
    generalize d.processCommand env i (c.lineText n) = e at uploads turn
    have rbytes : e.rbytes = c.rbytes := uploads.rbytes
    have rcurr : e.rcurr = c.rcurr := uploads.rcurr
    have received : e.received = c.received := uploads.received
    refine ⟨⟨⟨turn.inv.size, ?_, ?_, ?_, turn.inv.skips, turn.inv.resumes⟩, fun at' => ?_⟩, ?_,
      fun _ => ?_⟩
    · have := turn.inv.low
      show 0 ≤ e.rcurr + (n + 1)
      omega
    · show 0 ≤ e.rbytes - (n + 1)
      omega
    · have := turn.inv.high
      show e.rcurr + (n + 1) + (e.rbytes - (n + 1)) ≤ e.rsize
      omega
    · obtain ⟨length, nbytes, item, fits⟩ := uploads.target at'
      refine ⟨length, ?_⟩
      rw [item]
      exact ⟨le_refl _, show 0 + e.rlbytes ≤ nbytes by omega⟩
    · show c.received - c.rbytes ≤ e.received - (e.rbytes - (n + 1))
      omega
    · show c.rcurr ≤ e.rcurr + (n + 1)
      omega

theorem Buffers.tryReadCommand (h : Buffers c) (state : c.state ≠ .nread) (env : NetSettings)
    (i : Input) : Turn c (c.tryReadCommand env i).1 := by
  have buffers : Buffers c.negotiate ∧ c.negotiate.state ≠ .nread ∧
      c.negotiate.position = c.position ∧ c.negotiate.rcurr = c.rcurr ∧
      c.negotiate.repacks = c.repacks := by
    unfold negotiate
    by_cases first : c.protocol = .negotiating
    · rw [if_pos first]
      exact ⟨⟨h.size, h.low, h.bytes, h.high, h.skips, h.resumes⟩, state, rfl, rfl, rfl⟩
    · rw [if_neg first]
      exact ⟨h, state, rfl, rfl, rfl⟩
  obtain ⟨buffers, state', position, rcurr, repacks⟩ := buffers
  unfold Connection.tryReadCommand
  dsimp only
  split_ifs
  · have turn := buffers.tryReadBinary state' env i
    refine ⟨turn.inv, ?_, ?_⟩
    · rw [← position]
      exact turn.forward.1
    · rw [← rcurr, ← repacks]
      exact turn.forward.2
  · have turn := buffers.tryReadAscii state' env i
    refine ⟨turn.inv, ?_, ?_⟩
    · rw [← position]
      exact turn.forward.1
    · rw [← rcurr, ← repacks]
      exact turn.forward.2

/-! ## Data blocks -/

theorem Inv.copyLeftovers (h : Inv c) (state : c.state = .nread) (more : 0 < c.rlbytes) :
    Turn c c.copyLeftovers ∧ c.copyLeftovers.state = .nread ∧
      (c.copyLeftovers.rlbytes ≠ 0 → c.copyLeftovers.rbytes = 0) := by
  obtain ⟨length, target⟩ := h.target state
  have low := h.low
  have high := h.high
  have bytes := h.bytes
  unfold Connection.copyLeftovers
  by_cases some : c.rbytes > 0
  · rw [if_pos some]
    dsimp only
    obtain ⟨n, hn, upper, left⟩ : ∃ n, (if c.rbytes > c.rlbytes then c.rlbytes else c.rbytes) = n ∧
        (0 ≤ n ∧ n ≤ c.rbytes ∧ n ≤ c.rlbytes) ∧ (c.rlbytes - n ≠ 0 → c.rbytes - n = 0) := by
      refine ⟨_, rfl, ?_⟩
      split_ifs <;> omega
    rw [hn]
    obtain ⟨nonneg, ofBytes, ofLength⟩ := upper
    refine ⟨⟨⟨⟨h.size, ?_, ?_, ?_, h.skips, h.resumes⟩, fun _ => ⟨?_, ?_⟩⟩, ?_, fun _ => ?_⟩, state,
      left⟩
    · show 0 ≤ c.rcurr + n
      omega
    · show 0 ≤ c.rbytes - n
      omega
    · show c.rcurr + n + (c.rbytes - n) ≤ c.rsize
      omega
    · show 0 ≤ c.rlbytes - n
      omega
    · unfold advance
      cases item : c.ritem with
      | null =>
        rw [item] at target
        dsimp only at target ⊢
        omega
      | buffer off =>
        rw [item] at target
        dsimp only at target ⊢
        omega
      | item pos nbytes =>
        rw [item] at target
        dsimp only at target ⊢
        omega
    · show c.received - c.rbytes ≤ c.received - (c.rbytes - n)
      omega
    · show c.rcurr ≤ c.rcurr + n
      omega
  · rw [if_neg some]
    exact ⟨⟨h, Forward.refl c⟩, state, fun _ => by omega⟩

theorem fillItem_eq (c : Connection) (bytes : List UInt8) : ∃ buf,
    c.fillItem bytes = { c with rbuf := buf, received := c.received + bytes.length } := by
  unfold fillItem
  split
  · exact ⟨_, rfl⟩
  · exact ⟨c.rbuf, rfl⟩

theorem Inv.noBytes (h : Inv c) (i : Input) (answer : ReadAnswer) : Turn c (c.noBytes i answer) := by
  unfold Connection.noBytes
  split_ifs
  · exact ⟨h, Forward.refl c⟩
  · exact h.turn nofun

/-- A read puts at most `rlbytes` bytes where the item wants them. -/
theorem Inv.readItem (h : Inv c) (state : c.state = .nread) (more : 0 < c.rlbytes)
    (none : c.rbytes = 0) (i : Input) : Turn c (c.readItem i) := by
  obtain ⟨length, target⟩ := h.target state
  have low := h.low
  have high := h.high
  unfold Connection.readItem
  split
  · rename_i bytes _
    dsimp only
    by_cases empty : readUpTo c.rlbytes bytes = []
    · rw [if_pos empty]
      exact h.turn nofun
    · rw [if_neg empty]
      have fits := length_readUpTo c.rlbytes bytes
      generalize readUpTo c.rlbytes bytes = got at fits
      obtain ⟨buf, filled⟩ := c.fillItem_eq got
      rw [filled]
      have place : ∃ r, (if c.ritem = .buffer c.rcurr then c.rcurr + got.length else c.rcurr) = r ∧
          c.rcurr ≤ r ∧ (c.ritem = .buffer c.rcurr → r = c.rcurr + got.length) ∧
          (c.ritem ≠ .buffer c.rcurr → r = c.rcurr) := by
        refine ⟨_, rfl, ?_⟩
        split_ifs with here
        · exact ⟨by omega, fun _ => rfl, fun other => absurd here other⟩
        · exact ⟨le_refl _, fun at' => absurd at' here, fun _ => rfl⟩
      obtain ⟨r, hr, forward, inBuffer, elsewhere⟩ := place
      rw [hr]
      refine ⟨⟨⟨h.size, low.trans forward, h.bytes, ?_, h.skips, h.resumes⟩, fun _ => ⟨?_, ?_⟩⟩, ?_,
        fun _ => forward⟩
      · show r + c.rbytes ≤ c.rsize
        by_cases here : c.ritem = .buffer c.rcurr
        · rw [here] at target
          have := inBuffer here
          dsimp only at target
          omega
        · have := elsewhere here
          omega
      · show 0 ≤ c.rlbytes - got.length
        omega
      · show match c.advance got.length with
          | .null => c.rlbytes - got.length = 0
          | .buffer off => off = r ∧ off + (c.rlbytes - got.length) ≤ c.rsize
          | .item pos nbytes => 0 ≤ pos ∧ pos + (c.rlbytes - got.length) ≤ nbytes
        unfold advance
        cases item : c.ritem with
        | null =>
          rw [item] at target
          dsimp only at target ⊢
          omega
        | buffer off =>
          rw [item] at target
          dsimp only at target ⊢
          have := inBuffer (by rw [item, target.1])
          omega
        | item pos nbytes =>
          rw [item] at target
          dsimp only at target ⊢
          omega
      · show c.received - c.rbytes ≤ c.received + got.length - c.rbytes
        omega
  · exact h.noBytes i _

def Sized (c : Connection) : Prop :=
  c.state = .nread → c.rlbytes = 0 → c.protocol = .binary → ∀ v ∈ c.announced, 0 ≤ v

theorem Inv.nread (h : Inv c) (state : c.state = .nread) (sized : c.Sized) (env : NetSettings)
    (i : Input) : Turn c (c.nread env i) := by
  have length := (h.target state).1
  unfold Connection.nread
  split_ifs with done binary
  · exact (c.completeNreadBinary_uploads env i (sized state done binary)).turn h.toBuffers
  · exact c.outString_answers.turn h.toBuffers
  · exact h.turn nofun
  · obtain ⟨copied, state', none⟩ := h.copyLeftovers state (by omega)
    dsimp only
    split_ifs with all
    · exact copied
    · have length' := (copied.inv.target state').1
      have read := copied.inv.readItem state' (by omega) (none all) i
      refine ⟨read.inv, copied.forward.1.trans read.forward.1, fun same => ?_⟩
      have stays : c.copyLeftovers.repacks = c.repacks := by
        unfold Connection.copyLeftovers
        split_ifs <;> rfl
      exact (copied.forward.2 stays).trans (read.forward.2 (same.trans stays.symm))

theorem Inv.swallow (h : Inv c) (state : c.state = .swallow) (i : Input) :
    Turn c (c.swallow i) := by
  have low := h.low
  have high := h.high
  have skips := h.skips
  have other {c' : Connection} (same : c'.state = c.state) : c'.state ≠ .nread := by
    rw [same, state]
    decide
  unfold Connection.swallow
  by_cases done : c.sbytes = 0
  · rw [if_pos done]
    exact h.turn nofun
  rw [if_neg done]
  by_cases some : c.rbytes > 0
  · rw [if_pos some]
    dsimp only
    obtain ⟨n, hn, nonneg, ofBytes, ofSkips⟩ : ∃ n,
        (if c.rbytes > c.sbytes then c.sbytes else c.rbytes) = n ∧ 0 ≤ n ∧ n ≤ c.rbytes ∧
          n ≤ c.sbytes := by
      refine ⟨_, rfl, ?_⟩
      split_ifs <;> omega
    rw [hn]
    refine ⟨⟨⟨h.size, ?_, ?_, ?_, ?_, h.resumes⟩, fun at' => absurd at' (other rfl)⟩, ?_, fun _ => ?_⟩
    · show 0 ≤ c.rcurr + n
      omega
    · show 0 ≤ c.rbytes - n
      omega
    · show c.rcurr + n + (c.rbytes - n) ≤ c.rsize
      omega
    · show 0 ≤ c.sbytes - n
      omega
    · show c.received - c.rbytes ≤ c.received - (c.rbytes - n)
      omega
    · show c.rcurr ≤ c.rcurr + n
      omega
  · rw [if_neg some]
    split
    · rename_i bytes _
      dsimp only
      by_cases empty : readUpTo (if c.rsize > c.sbytes then c.sbytes else c.rsize) bytes = []
      · rw [if_pos empty]
        exact h.turn nofun
      · rw [if_neg empty]
        have fits := length_readUpTo (if c.rsize > c.sbytes then c.sbytes else c.rsize) bytes
        generalize readUpTo (if c.rsize > c.sbytes then c.sbytes else c.rsize) bytes = got at fits
        have within : (got.length : ℤ) ≤ c.sbytes := by
          split_ifs at fits <;> omega
        refine ⟨⟨⟨h.size, h.low, h.bytes, h.high, ?_, h.resumes⟩,
          fun at' => absurd at' (other rfl)⟩, ?_, fun _ => le_refl _⟩
        · show 0 ≤ c.sbytes - got.length
          omega
        · show c.received - c.rbytes ≤ c.received + got.length - c.rbytes
          omega
    · exact h.noBytes i _

theorem Inv.transmit (h : Inv c) (i : Input) : Turn c (c.transmit i) := by
  unfold Connection.transmit
  split
  · split_ifs
    · exact h.turn nofun
    · exact h.turn h.resumes
  · exact ⟨h, Forward.refl c⟩
  · exact ⟨h, Forward.refl c⟩
  · exact h.turn nofun

/-! ## Runs -/

theorem Inv.drive (h : Inv c) (sized : c.Sized) (env : NetSettings) (i : Input) :
    Turn c (c.drive env i) := by
  unfold Connection.drive
  split
  · split_ifs
    · exact h.turn nofun
    · exact h.turn nofun
  · rename_i state
    exact h.readNetwork (by rw [state]; decide) i.reads
  · rename_i state
    have turn := h.tryReadCommand (by rw [state]; decide) env i
    dsimp only
    split_ifs
    · exact turn
    · exact ⟨(turn.inv.turn (s := .waiting) nofun).inv, turn.forward⟩
  · split_ifs
    · exact h.resetCmdHandler i.memory
    · exact h.turn nofun
    · exact ⟨h, Forward.refl c⟩
  · rename_i state
    exact h.nread state sized env i
  · rename_i state
    exact h.swallow state i
  · exact h.transmit i
  · exact h.transmit i
  · exact h.turn nofun
  · exact ⟨h, Forward.refl c⟩
  · exact ⟨h, Forward.refl c⟩

theorem Inv.connReuse (h : Inv c) (env : NetSettings) : Turn c (c.connReuse env) := by
  have bytes := h.bytes
  have size := h.size
  refine ⟨⟨⟨h.size, le_refl _, le_refl _, ?_, h.skips, nofun⟩, nofun⟩, ?_, fun same => ?_⟩
  · show (0 : ℤ) + 0 ≤ c.rsize
    unfold dataBufferSize at size
    omega
  · show c.received - c.rbytes ≤ c.received - 0
    omega
  · exact absurd same (Nat.succ_ne_self _)

theorem Inv.handle (h : Inv c) (sized : c.Sized) (env : NetSettings) (e : Event) :
    Turn c (c.handle env e) := by
  cases e with
  | turn i => exact h.drive sized env i
  | idle =>
    show Turn c (if c.state = .newCmd ∨ c.state = .read then { c with state := .closing } else c)
    split_ifs
    · exact h.turn nofun
    · exact ⟨h, Forward.refl c⟩
  | reuse =>
    show Turn c (if c.state = .closed then c.connReuse env else c)
    split_ifs
    · exact h.connReuse env
    · exact ⟨h, Forward.refl c⟩

theorem connNew_inv (env : NetSettings) : Inv (connNew env) :=
  ⟨⟨le_refl _, le_refl _, le_refl _, show (0 : ℤ) + 0 ≤ 2048 by decide, le_refl _, nofun⟩, nofun⟩

/-- The events of a connection to whose requests the length condition applies. -/
def SizedStep (env : NetSettings) (c : Connection) (e : Event) (c' : Connection) : Prop :=
  c.Sized ∧ c' = c.handle env e

/-- In every state that a connection reaches while no binary request announces a negative value
length, the data lie in the read buffer, a swallow is of a length, `conn_nread` copies and reads
inside its target, and the next event moves forward in the byte stream. -/
theorem read_buffer_inside {env : NetSettings} {es : List Event} {c : Connection}
    (run : Run (SizedStep env) (connNew env) es c) :
    (0 ≤ c.rcurr ∧ 0 ≤ c.rbytes ∧ c.rcurr + c.rbytes ≤ c.rsize ∧
        (c.state = .swallow → 0 ≤ c.sbytes) ∧ (c.state = .nread → c.Targets)) ∧
      (c.Sized → ∀ e, c.Forward (c.handle env e)) := by
  have inv : Inv c := by
    refine run.invariant Inv ?_ (connNew_inv env)
    rintro c e _ h ⟨sized, rfl⟩
    exact (h.handle sized env e).inv
  refine ⟨⟨inv.low, inv.bytes, inv.high, fun _ => inv.skips, inv.target⟩, fun sized e => ?_⟩
  exact (inv.handle sized env e).forward

/-- A turn in which the kernel has the given bytes ready, memory and the event loop work, and a
response is sent at once. -/
def calm (bytes : List UInt8) : Event :=
  .turn ⟨true, false, [(true, .data bytes)], true, true, true, .response, .complete, .fail⟩

def plainNet : NetSettings := ⟨.negotiating, false, true⟩

/-- A line has been received. -/
theorem read_buffer_inside_line : ∃ c : Connection, c.state = .parseCmd ∧ c.rbytes = 7 ∧
    c.rcurr + c.rbytes ≤ c.rsize := by
  have run : Run (SizedStep plainNet) (connNew plainNet)
      [calm [], calm [], calm "get a\r\n".toUTF8.toList] _ :=
    .cons ⟨nofun, rfl⟩ (.cons ⟨nofun, rfl⟩ (.cons ⟨nofun, rfl⟩ (.nil _)))
  exact ⟨_, by decide +kernel, by decide +kernel, (read_buffer_inside run).1.2.2.1⟩

/-- The header and the extras of a binary `set` of key `a` whose `bodylen` is `0x80000009`, and one
byte more. -/
def hugeSet : List UInt8 :=
  [0x80, 1, 0, 1, 8, 0, 0, 0, 0x80, 0, 0, 9, 0, 0, 0, 0, 0, 0, 0, 0, 0, 0, 0, 0] ++
    [0, 0, 0, 0, 0, 0, 0, 0, 97] ++ [120]

/-- The connection of `hugeSet` when it begins to swallow the value. -/
def hugeSetSwallow : Connection :=
  [calm [], calm [], calm hugeSet, calm [], calm [], calm [], calm []].foldl
    (fun c e => c.handle plainNet e) (connNew plainNet)

/-- The negative value length becomes `sbytes`, and the swallow puts `rcurr` two gigabytes before the
buffer and takes back bytes that were consumed. -/
theorem negative_swallow_walks_back :
    hugeSetSwallow.state = .swallow ∧ hugeSetSwallow.sbytes = -2 ^ 31 ∧
      (hugeSetSwallow.handle plainNet (calm [])).rcurr = 33 - 2 ^ 31 ∧
      ¬hugeSetSwallow.Forward (hugeSetSwallow.handle plainNet (calm [])) := by
  refine ⟨by decide +kernel, by decide +kernel, by decide +kernel, fun forward => ?_⟩
  have before : hugeSetSwallow.position = 33 := by decide +kernel
  have after : (hugeSetSwallow.handle plainNet (calm [])).position = 33 - 2 ^ 31 := by
    decide +kernel
  have := forward.1
  omega

end Connection

end LogMemcached
