import LogMemcached.Framing
import LogMemcached.RecordBounds

/-!
# The body of a binary request

`dispatch_bin_command` takes the body of a request apart in up to three stages: key and extras
through `bin_read_key`, a value through a second `conn_nread`, and what an error leaves over through
`conn_swallow`.  Each command checks other fields of the header.  `BinaryHeader.bodyFits` says for
which headers the stages add up to `bodylen`.
-/

namespace LogMemcached

open Transition

namespace BinaryHeader

/-- The key, the extras and what the command reads or swallows after them make up the body. -/
def keyFits (h : BinaryHeader) : BinSubstate × ℕ → Bool
  | (.readingSetHeader, extra) => decide (h.bodylen < h.keylen + extra + 2 ^ 31)
  | (.readingSaslAuth, _) => decide (h.keylen ≤ h.bodylen ∧ h.bodylen < h.keylen + 2 ^ 31)
  | (_, extra) => decide (h.bodylen = h.keylen + extra)

/-- The headers for which the bytes consumed after the header are those of the body, or the
connection is closed. -/
def bodyFits (h : BinaryHeader) : Bool :=
  h.magic ≠ 0x80 || decide (h.keylen > keyMaxLength) ||
    match h.readsKey h.command.1 with
    | some stages => h.keyFits stages
    | none => h.command.1 ≠ .unknown || decide (h.bodylen < 2 ^ 31)

end BinaryHeader

namespace Connection

variable {c d : Connection} {env : NetSettings} {i : Input} {stop : ℤ}

/-! ## Reading towards an item or a key -/

/-- A connection that has read on: what it reads for is the same, and the end of it as well. -/
structure Reads (c d : Connection) : Prop where
  state : d.state = c.state
  protocol : d.protocol = c.protocol
  substate : d.substate = c.substate
  header : d.header = c.header
  cmd : d.cmd = c.cmd
  sbytes : d.sbytes = c.sbytes
  stop : d.position + d.rlbytes = c.position + c.rlbytes

theorem copyLeftovers_reads (c : Connection) : Reads c c.copyLeftovers := by
  unfold Connection.copyLeftovers
  by_cases some : c.rbytes > 0
  · rw [if_pos some]
    refine ⟨rfl, rfl, rfl, rfl, rfl, rfl, ?_⟩
    simp only [position]
    omega
  · rw [if_neg some]
    exact ⟨rfl, rfl, rfl, rfl, rfl, rfl, rfl⟩

theorem readItem_reads (c : Connection) (i : Input) :
    (c.readItem i).state = .closing ∨ Reads c (c.readItem i) := by
  unfold Connection.readItem
  split
  · rename_i bytes _
    dsimp only
    by_cases empty : readUpTo c.rlbytes bytes = []
    · rw [if_pos empty]
      exact .inl rfl
    rw [if_neg empty]
    generalize readUpTo c.rlbytes bytes = got
    obtain ⟨buf, filled⟩ := c.fillItem_eq got
    rw [filled]
    refine .inr ⟨rfl, rfl, rfl, rfl, rfl, rfl, ?_⟩
    simp only [position]
    omega
  · unfold Connection.noBytes
    split_ifs
    · exact .inr ⟨rfl, rfl, rfl, rfl, rfl, rfl, rfl⟩
    · exact .inl rfl

theorem nread_reads (more : 0 < c.rlbytes) (env : NetSettings) (i : Input) :
    (c.nread env i).state = .closing ∨ Reads c (c.nread env i) := by
  have copied := c.copyLeftovers_reads
  rw [Connection.nread, if_neg more.ne', if_neg more.le.not_gt]
  dsimp only
  by_cases done : c.copyLeftovers.rlbytes = 0
  · rw [if_pos done]
    exact .inr copied
  rw [if_neg done]
  rcases c.copyLeftovers.readItem_reads i with closing | reads
  · exact .inl closing
  · exact .inr ⟨reads.state.trans copied.state, reads.protocol.trans copied.protocol,
      reads.substate.trans copied.substate, reads.header.trans copied.header,
      reads.cmd.trans copied.cmd, reads.sbytes.trans copied.sbytes, reads.stop.trans copied.stop⟩

/-! ## Inside a request -/

/-- The `vlen` that the storage commands compute from the header. -/
def storeVlen (c : Connection) : ℤ :=
  if c.cmd = .append ∨ c.cmd = .prepend then c.header.appendVlen else c.header.updateVlen

/-- A storage command of negative length is an `append` or `prepend` whose body is shorter than its
key. -/
def Measured (c : Connection) : Prop :=
  0 ≤ c.storeVlen ∨
    (c.cmd = .append ∨ c.cmd = .prepend) ∧ -c.header.keylen ≤ c.storeVlen ∧
      c.header.keylen ≤ keyMaxLength

/-- Where `conn_nread` stands in a request that ends at `stop`, by what it reads. -/
def Stage (stop : ℤ) (c : Connection) : Prop :=
  match c.substate with
  | .readingSetHeader =>
      c.sbytes = 0 ∧ c.Measured ∧ c.position + c.rlbytes + c.storeVlen = stop
  | .readingSaslAuth =>
      c.sbytes = 0 ∧ 0 ≤ c.header.appendVlen ∧ c.position + c.rlbytes + c.header.appendVlen = stop
  | .noState => True
  | _ => c.position + c.rlbytes = stop

/-- The connection is inside a binary request that ends at `stop`, behind it, or closing. -/
def BinFramed (stop : ℤ) (c : Connection) : Prop :=
  match c.state with
  | .nread => c.protocol = .binary ∧ (c.rlbytes < 0 ∨ Stage stop c)
  | .swallow => c.position + c.sbytes = stop
  | .write | .mwrite =>
      c.protocol = .binary ∧
        ((c.writeAndGo = .swallow ∧ c.position + c.sbytes = stop) ∨
          (c.writeAndGo = .newCmd ∧ c.position = stop) ∨ c.writeAndGo = .closing)
  | .newCmd => c.position = stop
  | .closing | .closed | .watch => True
  | _ => False

theorem BinFramed.of_closing (closing : c.state = .closing) : BinFramed stop c := by
  rw [BinFramed, closing]
  trivial

theorem Reads.measured (reads : Reads c d) (h : c.Measured) : d.Measured := by
  unfold Measured storeVlen at h ⊢
  rw [reads.cmd, reads.header]
  exact h

theorem Reads.stage (reads : Reads c d) (h : Stage stop c) : Stage stop d := by
  have same : d.storeVlen = c.storeVlen := by rw [storeVlen, storeVlen, reads.cmd, reads.header]
  unfold Stage at h ⊢
  rw [reads.substate]
  split at h
  · rw [reads.sbytes, reads.stop, same]
    exact ⟨h.1, reads.measured h.2.1, h.2.2⟩
  · rw [reads.sbytes, reads.stop, reads.header]
    exact h
  · trivial
  · rw [reads.stop]
    exact h

/-! ## The end of a read -/

theorem BinFramed.writeBinResponse (binary : c.protocol = .binary) (at' : c.position = stop) :
    BinFramed stop c.writeBinResponse := by
  unfold Connection.writeBinResponse
  split_ifs
  · exact ⟨binary, .inr (.inl ⟨rfl, at'⟩)⟩
  · exact at'

theorem BinFramed.writeBinError {n : ℤ} (binary : c.protocol = .binary) (length : 0 ≤ n)
    (at' : c.position + n = stop) : BinFramed stop (c.writeBinError n) := by
  unfold Connection.writeBinError
  split_ifs
  · exact ⟨binary, .inl ⟨rfl, at'⟩⟩
  · exact ⟨binary, .inr (.inl ⟨rfl, show c.position = stop by omega⟩)⟩

theorem BinFramed.writeBinError_swallow {n : ℤ} (binary : c.protocol = .binary) (clean : c.sbytes = 0)
    (length : 0 ≤ n) (at' : c.position + n = stop) :
    BinFramed stop { c.writeBinError n with writeAndGo := .swallow } := by
  unfold Connection.writeBinError
  split_ifs
  · exact ⟨binary, .inl ⟨rfl, at'⟩⟩
  · exact ⟨binary, .inl ⟨rfl, show c.position + c.sbytes = stop by omega⟩⟩

theorem BinFramed.finish (binary : c.protocol = .binary) (at' : c.position = stop)
    (effect : ConnEffect) : BinFramed stop (c.finish effect) := by
  cases effect with
  | reply noreply =>
    unfold Connection.finish Connection.outString
    dsimp only
    split_ifs
    · exact at'
    · exact ⟨binary, .inr (.inl ⟨rfl, at'⟩)⟩
  | response => exact BinFramed.writeBinResponse binary at'
  | error => exact BinFramed.writeBinError binary le_rfl (by omega)
  | values => exact ⟨binary, .inr (.inl ⟨rfl, at'⟩)⟩
  | text => exact ⟨binary, .inr (.inl ⟨rfl, at'⟩)⟩
  | silent => exact at'
  | quit => trivial
  | watch => trivial

theorem allocTotal_ne_zero {useCas : Bool} {nkey flags : ℕ} {nbytes : ℤ} (short : nkey ≤ keyMaxLength)
    (low : -nkey ≤ nbytes) (high : nbytes < 2 ^ 31) : allocTotal useCas nkey flags nbytes ≠ 0 := by
  unfold keyMaxLength at short
  simp only [allocTotal, itemMakeHeader, sizeofItemData]
  generalize (suffixText flags nbytes).length = suffix
  split_ifs <;> omega

theorem toInt_of_bounds {z : ℤ} (low : -2 ^ 31 ≤ z) (high : z < 2 ^ 31) : toInt z = z := by
  rw [AllocRequest.toInt_eq]
  split_ifs <;> omega

/-- `process_bin_update` and `process_bin_append_prepend` at the end of the key. -/
theorem BinFramed.binStore {flags : ℕ} (binary : c.protocol = .binary) (clean : c.sbytes = 0)
    (sized : c.Measured) (at' : c.position + c.storeVlen = stop) (env : NetSettings) (i : Input) :
    BinFramed stop (c.binStore env i flags c.storeVlen) := by
  unfold Connection.binStore
  by_cases served : allocates env i c.header.keylen flags (toInt (c.storeVlen + 2)) = true
  · rw [if_pos served]
    exact ⟨binary, .inr at'⟩
  rw [if_neg served]
  by_cases none : allocTotal env.useCas c.header.keylen flags (toInt (c.storeVlen + 2)) = 0
  · rw [if_pos none]
    rcases lt_or_ge c.storeVlen 0 with negative | length
    · obtain ⟨-, low, short⟩ := sized.resolve_left (not_le.2 negative)
      have small : (c.header.keylen : ℤ) ≤ 250 := by exact_mod_cast short
      have exact : toInt (c.storeVlen + 2) = c.storeVlen + 2 := toInt_of_bounds (by omega) (by omega)
      rw [exact] at none
      exact absurd none (allocTotal_ne_zero short (by omega) (by omega))
    · exact BinFramed.writeBinError_swallow binary clean length at'
  · rw [if_neg none, Connection.outOfMemory, if_pos binary]
    exact ⟨binary, .inl ⟨rfl, at'⟩⟩

theorem BinFramed.processBinSaslAuth (binary : c.protocol = .binary) (clean : c.sbytes = 0)
    (length : 0 ≤ c.header.appendVlen) (at' : c.position + c.header.appendVlen = stop)
    (env : NetSettings) (i : Input) : BinFramed stop (c.processBinSaslAuth env i) := by
  unfold Connection.processBinSaslAuth
  dsimp only
  split_ifs
  · exact BinFramed.writeBinError binary length at'
  · exact BinFramed.writeBinError_swallow binary clean length at'
  · exact ⟨binary, .inr at'⟩

theorem BinFramed.processBinCompleteSaslAuth (binary : c.protocol = .binary)
    (at' : c.position = stop) (env : NetSettings) (i : Input) :
    BinFramed stop (c.processBinCompleteSaslAuth env i) := by
  have opened : (c.initSaslConn env).protocol = .binary ∧ (c.initSaslConn env).position = stop := by
    unfold Connection.initSaslConn
    split_ifs
    · exact ⟨binary, at'⟩
    · exact ⟨binary, at'⟩
  unfold Connection.processBinCompleteSaslAuth
  dsimp only
  split
  · exact BinFramed.writeBinResponse opened.1 opened.2
  · exact ⟨opened.1, .inr (.inl ⟨rfl, opened.2⟩)⟩
  · exact BinFramed.writeBinError opened.1 le_rfl (by rw [opened.2, add_zero])

theorem Stage.complete (h : Stage stop c) (binary : c.protocol = .binary) (done : c.rlbytes = 0)
    (env : NetSettings) (i : Input) : BinFramed stop (c.completeNreadBinary env i) := by
  unfold Stage at h
  rw [done, add_zero] at h
  unfold Connection.completeNreadBinary
  cases sub : c.substate with
  | readingSetHeader =>
    rw [sub] at h
    obtain ⟨clean, sized, at'⟩ := h
    have store (flags : ℕ) : BinFramed stop (c.binStore env i flags c.storeVlen) :=
      BinFramed.binStore binary clean sized at' env i
    dsimp only
    by_cases joins : c.cmd = .append ∨ c.cmd = .prepend
    · rw [if_pos joins]
      have store := store 0
      rwa [storeVlen, if_pos joins] at store
    · rw [if_neg joins]
      unfold Connection.processBinUpdate
      have store := store (bigEndian c.rbuf (c.rcurr - c.header.keylen - c.header.extlen) 4)
      rwa [storeVlen, if_neg joins] at store
  | readingSaslAuth =>
    rw [sub] at h
    exact BinFramed.processBinSaslAuth binary h.1 h.2.1 h.2.2 env i
  | readingSaslAuthData =>
    rw [sub] at h
    exact BinFramed.processBinCompleteSaslAuth binary h env i
  | noState => trivial
  | _ =>
    rw [sub] at h
    exact BinFramed.finish binary h i.effect

/-! ## One turn -/

theorem BinFramed.nread (h : BinFramed stop c) (state : c.state = .nread) (env : NetSettings)
    (i : Input) : BinFramed stop (c.nread env i) := by
  rw [BinFramed, state] at h
  obtain ⟨binary, negative | stage⟩ := h
  · rw [Connection.nread, if_neg negative.ne, if_pos negative]
    trivial
  rcases lt_trichotomy c.rlbytes 0 with negative | done | more
  · rw [Connection.nread, if_neg negative.ne, if_pos negative]
    trivial
  · rw [Connection.nread, if_pos done, if_pos binary]
    exact stage.complete binary done env i
  · rcases nread_reads more env i with closing | reads
    · exact .of_closing closing
    · rw [BinFramed, reads.state, state]
      exact ⟨reads.protocol.trans binary, .inr (reads.stage stage)⟩

theorem BinFramed.swallow (h : BinFramed stop c) (state : c.state = .swallow) (i : Input) :
    BinFramed stop (c.swallow i) := by
  have h : c.position + c.sbytes = stop := by rwa [BinFramed, state] at h
  have stays {d : Connection} (same : d.state = c.state) (at' : d.position + d.sbytes = stop) :
      BinFramed stop d := by
    rw [BinFramed, same, state]
    exact at'
  unfold position at h stays
  unfold Connection.swallow
  by_cases done : c.sbytes = 0
  · rw [if_pos done]
    show c.received - c.rbytes = stop
    omega
  rw [if_neg done]
  by_cases some : c.rbytes > 0
  · rw [if_pos some]
    refine stays ?_ ?_
    · rfl
    · dsimp only
      omega
  rw [if_neg some]
  split
  · rename_i bytes _
    dsimp only
    generalize readUpTo (if c.rsize > c.sbytes then c.sbytes else c.rsize) bytes = got
    by_cases empty : got = []
    · rw [if_pos empty]
      trivial
    rw [if_neg empty]
    refine stays ?_ ?_
    · rfl
    · show c.received + got.length - c.rbytes + (c.sbytes - got.length) = stop
      omega
  · unfold Connection.noBytes
    split_ifs
    · exact stays rfl h
    · trivial

theorem BinFramed.transmit (h : BinFramed stop c) (state : c.state = .write ∨ c.state = .mwrite)
    (i : Input) : BinFramed stop (c.transmit i) := by
  have inside : c.protocol = .binary ∧
      ((c.writeAndGo = .swallow ∧ c.position + c.sbytes = stop) ∨
        (c.writeAndGo = .newCmd ∧ c.position = stop) ∨ c.writeAndGo = .closing) := by
    rcases state with state | state <;> rwa [BinFramed, state] at h
  obtain ⟨binary, next⟩ := inside
  unfold Connection.transmit
  split
  · rw [if_neg (by rw [binary]; exact fun h => h.2 rfl)]
    unfold BinFramed
    dsimp only
    rcases next with ⟨next, at'⟩ | ⟨next, at'⟩ | next <;> rw [next]
    · exact at'
    · exact at'
    · trivial
  · exact h
  · exact h
  · trivial

theorem BinFramed.drive (h : BinFramed stop c) (busy : c.state ≠ .newCmd) (env : NetSettings)
    (i : Input) : BinFramed stop (c.drive env i) := by
  have inside := h
  unfold BinFramed at inside
  unfold Connection.drive
  cases state : c.state with
  | waiting =>
    rw [state] at inside
    exact inside.elim
  | read =>
    rw [state] at inside
    exact inside.elim
  | parseCmd =>
    rw [state] at inside
    exact inside.elim
  | newCmd => exact absurd state busy
  | nread => exact h.nread state env i
  | swallow => exact h.swallow state i
  | write => exact h.transmit (.inl state) i
  | mwrite => exact h.transmit (.inr state) i
  | closing => trivial
  | closed => exact h
  | watch => exact h

theorem BinFramed.run {is : List Input} (run : Run (BusyStep env) c is d) (h : BinFramed stop c) :
    BinFramed stop d := by
  refine run.invariant (BinFramed stop) ?_ h
  rintro c i _ h ⟨busy, rfl⟩
  exact h.drive busy env i

/-! ## From the header on -/

/-- What `dispatch_bin_command` asks `bin_read_key` for on behalf of a storage command. -/
theorem readsKey_setHeader {h : BinaryHeader} {cmd : BinCmd} {extra : ℕ}
    (reads : h.readsKey cmd = some (.readingSetHeader, extra)) :
    extra = h.extlen ∧ ((¬ (cmd = .append ∨ cmd = .prepend) ∧ h.keylen + extra ≤ h.bodylen) ∨
      (cmd = .append ∨ cmd = .prepend) ∧ extra = 0) := by
  unfold BinaryHeader.readsKey at reads
  cases cmd <;> simp only [reduceCtorEq] at reads <;> split_ifs at reads with ok <;>
    simp only [Option.some.injEq, Prod.mk.injEq, reduceCtorEq, false_and, true_and] at reads <;>
    subst reads <;> simp <;> omega

/-- `bin_read_key` starts to read the key and the extras, or closes the connection. -/
structure ReadsKey (c d : Connection) (next : BinSubstate) (extra : ℕ) : Prop where
  state : d.state = .nread
  protocol : d.protocol = c.protocol
  substate : d.substate = next
  rlbytes : d.rlbytes = c.header.keylen + extra
  header : d.header = c.header
  cmd : d.cmd = c.cmd
  sbytes : d.sbytes = c.sbytes
  position : d.position = c.position

theorem binReadKey_stage (c : Connection) (next : BinSubstate) (extra : ℕ) (memory : Bool) :
    (c.binReadKey next extra memory).state = .closing ∨
      ReadsKey c (c.binReadKey next extra memory) next extra := by
  unfold Connection.binReadKey
  dsimp only
  split_ifs
  · exact .inl rfl
  · right
    unfold Connection.repack
    split_ifs
    · exact ⟨rfl, rfl, rfl, rfl, rfl, rfl, rfl, rfl⟩
    · exact ⟨rfl, rfl, rfl, rfl, rfl, rfl, rfl, rfl⟩
  · exact .inr ⟨rfl, rfl, rfl, rfl, rfl, rfl, rfl, rfl⟩

theorem BinFramed.binReadKey {next : BinSubstate} {extra : ℕ} (binary : c.protocol = .binary)
    (stage : ∀ d, ReadsKey c d next extra → Stage stop d) (memory : Bool) :
    BinFramed stop (c.binReadKey next extra memory) := by
  rcases c.binReadKey_stage next extra memory with closing | reads
  · exact .of_closing closing
  · rw [BinFramed, reads.state]
    exact ⟨reads.protocol.trans binary, .inr (stage _ reads)⟩

theorem readsKey_sasl {h : BinaryHeader} {cmd : BinCmd} {extra : ℕ}
    (reads : h.readsKey cmd = some (.readingSaslAuth, extra)) : extra = 0 := by
  unfold BinaryHeader.readsKey at reads
  cases cmd <;> simp only [reduceCtorEq] at reads <;> split_ifs at reads with ok <;>
    simp_all

theorem readsKey_state {h : BinaryHeader} {cmd : BinCmd} {next : BinSubstate} {extra : ℕ}
    (reads : h.readsKey cmd = some (next, extra)) :
    next ≠ .noState ∧ next ≠ .readingSaslAuthData ∧ extra ≤ 20 := by
  unfold BinaryHeader.readsKey at reads
  cases cmd <;> simp only [reduceCtorEq] at reads <;> split_ifs at reads with ok <;>
    simp only [Option.some.injEq, Prod.mk.injEq] at reads <;>
    obtain ⟨rfl, rfl⟩ := reads <;> simp <;> omega

theorem storeVlen_eq {extra : ℕ} (short : c.header.keylen ≤ keyMaxLength)
    (known : c.header.readsKey c.cmd = some (.readingSetHeader, extra))
    (fits : c.header.bodylen < c.header.keylen + extra + 2 ^ 31) :
    c.storeVlen = c.header.bodylen - c.header.keylen - extra ∧ c.Measured := by
  unfold Measured storeVlen BinaryHeader.appendVlen BinaryHeader.updateVlen
  have short' := short
  unfold keyMaxLength at short'
  obtain ⟨rfl, ⟨other, long⟩ | ⟨joins, none⟩⟩ := readsKey_setHeader known
  · rw [if_neg other, toInt_of_bounds (by omega) (by omega)]
    exact ⟨by omega, .inl (by omega)⟩
  · rw [if_pos joins, toInt_of_bounds (by omega) (by omega)]
    exact ⟨by omega, .inr ⟨joins, by omega, short⟩⟩

theorem ReadsKey.stage {next : BinSubstate} {extra : ℕ} (reads : ReadsKey c d next extra)
    (clean : c.sbytes = 0) (short : c.header.keylen ≤ keyMaxLength)
    (known : c.header.readsKey c.cmd = some (next, extra))
    (fits : c.header.keyFits (next, extra) = true) : Stage (c.position + c.header.bodylen) d := by
  have same : d.storeVlen = c.storeVlen := by rw [storeVlen, storeVlen, reads.cmd, reads.header]
  unfold Stage
  rw [reads.substate]
  cases next with
  | readingSetHeader =>
    obtain ⟨vlen, measured⟩ := storeVlen_eq short known (of_decide_eq_true fits)
    have measured' : d.Measured := by
      unfold Measured at measured ⊢
      rw [same, reads.cmd, reads.header]
      exact measured
    refine ⟨reads.sbytes.trans clean, measured', ?_⟩
    rw [reads.position, reads.rlbytes, same, vlen]
    ring
  | readingSaslAuth =>
    obtain ⟨low, high⟩ := of_decide_eq_true fits
    have vlen : d.header.appendVlen = c.header.bodylen - c.header.keylen := by
      rw [reads.header]
      exact toInt_of_bounds (by omega) (by omega)
    refine ⟨reads.sbytes.trans clean, by omega, ?_⟩
    rw [reads.position, reads.rlbytes, vlen, readsKey_sasl known]
    push_cast
    ring
  | noState => exact absurd rfl (readsKey_state known).1
  | _ =>
    have exact : c.header.bodylen = c.header.keylen + extra := of_decide_eq_true fits
    dsimp only
    rw [reads.position, reads.rlbytes, exact]
    push_cast
    ring

theorem BinFramed.binaryProtocolError (binary : c.protocol = .binary) :
    BinFramed stop c.handleBinaryProtocolError := by
  unfold Connection.handleBinaryProtocolError Connection.writeBinError
  rw [if_neg (lt_irrefl 0)]
  exact ⟨binary, .inr (.inr rfl)⟩

theorem BinFramed.quit (binary : c.protocol = .binary) :
    BinFramed stop (let c := { c.writeBinResponse with writeAndGo := .closing }
      if c.noreply then { c with state := .closing } else c) := by
  have keeps : c.writeBinResponse.noreply = c.noreply := by
    unfold Connection.writeBinResponse
    split_ifs <;> rfl
  dsimp only
  rw [keeps]
  cases noreply : c.noreply with
  | false =>
    rw [if_neg Bool.false_ne_true, Connection.writeBinResponse, if_pos (by simp [noreply])]
    exact ⟨binary, .inr (.inr rfl)⟩
  | true =>
    rw [if_pos rfl]
    trivial

theorem BinFramed.binListSaslMechs (binary : c.protocol = .binary) (at' : c.position = stop)
    (env : NetSettings) (i : Input) : BinFramed stop (c.binListSaslMechs env i) := by
  have opened : (c.initSaslConn env).protocol = .binary ∧ (c.initSaslConn env).position = stop := by
    unfold Connection.initSaslConn
    split_ifs
    · exact ⟨binary, at'⟩
    · exact ⟨binary, at'⟩
  unfold Connection.binListSaslMechs
  split_ifs
  · exact BinFramed.writeBinError binary le_rfl (by rw [at', add_zero])
  · exact BinFramed.writeBinError opened.1 le_rfl (by rw [opened.2, add_zero])
  · exact BinFramed.writeBinResponse opened.1 opened.2

theorem bare_bodylen {h : BinaryHeader} (bare : h.bare = true) : (h.bodylen : ℤ) = 0 := by
  have := (of_decide_eq_true bare).2.2
  omega

theorem dispatchCommand_framed (binary : c.protocol = .binary) (clean : c.sbytes = 0)
    (short : c.header.keylen ≤ keyMaxLength)
    (unknown : c.cmd = .unknown ∨ c.cmd = .nread → c.header.bodylen < 2 ^ 31)
    (fits : ∀ stages ∈ c.header.readsKey c.cmd, c.header.keyFits stages = true) (env : NetSettings)
    (i : Input) : BinFramed (c.position + c.header.bodylen) (c.dispatchCommand env i) := by
  have ends (bare : c.header.bare = true) : c.position = c.position + c.header.bodylen := by
    rw [bare_bodylen bare, add_zero]
  unfold Connection.dispatchCommand
  split
  · split_ifs with bare
    · exact BinFramed.writeBinResponse binary (ends bare)
    · exact BinFramed.binaryProtocolError binary
  · split_ifs with bare
    · exact BinFramed.writeBinResponse binary (ends bare)
    · exact BinFramed.binaryProtocolError binary
  · by_cases bare : c.header.bare = true
    · rw [if_pos bare]
      exact BinFramed.quit binary
    · rw [if_neg bare]
      exact BinFramed.binaryProtocolError binary
  · split_ifs with bare
    · exact BinFramed.binListSaslMechs binary (ends bare) env i
    · exact BinFramed.binaryProtocolError binary
  · next cmd =>
    have small := unknown (.inl cmd)
    rw [toInt_of_bounds (by omega) (by omega)]
    exact BinFramed.writeBinError binary (by omega) rfl
  · next cmd =>
    have small := unknown (.inr cmd)
    rw [toInt_of_bounds (by omega) (by omega)]
    exact BinFramed.writeBinError binary (by omega) rfl
  · split
    · next next extra known =>
      refine BinFramed.binReadKey binary (fun d reads => ?_) i.memory
      exact reads.stage clean short known (fits _ known)
    · exact BinFramed.binaryProtocolError binary

theorem command_ne_nread (h : BinaryHeader) : h.command.1 ≠ .nread := by
  unfold BinaryHeader.command
  split <;> nofun

theorem dispatchBinCommand_framed (binary : c.protocol = .binary) (clean : c.sbytes = 0)
    (cmd : c.cmd = c.header.command.1) (magic : c.header.magic = 0x80)
    (fits : c.header.bodyFits = true) (env : NetSettings) (i : Input) :
    BinFramed (c.position + c.header.bodylen) (c.dispatchBinCommand env i) := by
  unfold Connection.dispatchBinCommand
  by_cases gate : (env.sasl && !c.isAuthenticated) = true
  · rw [if_pos gate]
    exact BinFramed.binaryProtocolError binary
  rw [if_neg gate]
  by_cases long : c.header.keylen > keyMaxLength
  · rw [if_pos long]
    exact BinFramed.binaryProtocolError binary
  rw [if_neg long]
  unfold BinaryHeader.bodyFits at fits
  rw [magic] at fits
  simp only [ne_eq, not_true_eq_false, decide_false, long, Bool.false_or, ← cmd] at fits
  refine dispatchCommand_framed (c := { c with noreply := c.header.command.2 }) binary clean
    (not_lt.1 long) ?_ ?_ env i
  · rintro (unknown | nread)
    · rw [show c.header.readsKey c.cmd = none by rw [show c.cmd = .unknown from unknown]; rfl] at fits
      simpa [show c.cmd = .unknown from unknown] using fits
    · exact absurd (cmd.symm.trans nread) (command_ne_nread c.header)
  · intro stages known
    rw [show c.header.readsKey c.cmd = some stages from known] at fits
    exact fits

/-- A header lies at the front of the buffer of a binary connection on which no earlier request has
left anything to swallow. -/
structure BinaryRequest (c : Connection) (i : Input) : Prop where
  state : c.state = .parseCmd
  binary : c.negotiate.protocol = .binary
  bytes : sizeofBinaryHeader ≤ c.rbytes
  msghdr : i.msghdr = true
  clean : c.sbytes = 0

def request (c : Connection) : Connection :=
  let c := c.negotiate
  { c with
    header := binaryHeaderAt c.rbuf c.rcurr
    cmd := (binaryHeaderAt c.rbuf c.rcurr).command.1 }

def past (c : Connection) : Connection :=
  { c with rbytes := c.rbytes - sizeofBinaryHeader, rcurr := c.rcurr + sizeofBinaryHeader }

theorem position_past (c : Connection) : c.past.position = c.position + sizeofBinaryHeader := by
  simp only [position, Connection.past]
  ring

theorem Stage.past (h : Stage stop c) : Stage (stop + sizeofBinaryHeader) c.past := by
  have at' := c.position_past
  unfold Stage at h ⊢
  change match c.substate with
    | .readingSetHeader => c.sbytes = 0 ∧ c.Measured ∧
        c.past.position + c.rlbytes + c.storeVlen = stop + sizeofBinaryHeader
    | .readingSaslAuth => c.sbytes = 0 ∧ 0 ≤ c.header.appendVlen ∧
        c.past.position + c.rlbytes + c.header.appendVlen = stop + sizeofBinaryHeader
    | .noState => True
    | _ => c.past.position + c.rlbytes = stop + sizeofBinaryHeader
  rw [at']
  split at h
  · exact ⟨h.1, h.2.1, by omega⟩
  · exact ⟨h.1, h.2.1, by omega⟩
  · trivial
  · omega

theorem BinFramed.past (h : BinFramed stop c) : BinFramed (stop + sizeofBinaryHeader) c.past := by
  have at' := c.position_past
  unfold BinFramed at h ⊢
  change match c.state with
    | .nread => c.protocol = .binary ∧ (c.rlbytes < 0 ∨ Stage (stop + sizeofBinaryHeader) c.past)
    | .swallow => c.past.position + c.sbytes = stop + sizeofBinaryHeader
    | .write | .mwrite =>
        c.protocol = .binary ∧
          ((c.writeAndGo = .swallow ∧ c.past.position + c.sbytes = stop + sizeofBinaryHeader) ∨
            (c.writeAndGo = .newCmd ∧ c.past.position = stop + sizeofBinaryHeader) ∨
            c.writeAndGo = .closing)
    | .newCmd => c.past.position = stop + sizeofBinaryHeader
    | .closing | .closed | .watch => True
    | _ => False
  rw [at']
  split at h
  · exact ⟨h.1, h.2.imp_right Stage.past⟩
  · omega
  · exact ⟨h.1, h.2.imp (And.imp_right fun _ => by omega) (Or.imp_left (And.imp_right fun _ => by omega))⟩
  · exact ⟨h.1, h.2.imp (And.imp_right fun _ => by omega) (Or.imp_left (And.imp_right fun _ => by omega))⟩
  · omega
  · trivial
  · trivial
  · trivial
  · exact h

theorem negotiate_same (c : Connection) : c.negotiate.rbuf = c.rbuf ∧ c.negotiate.rcurr = c.rcurr ∧
    c.negotiate.rbytes = c.rbytes ∧ c.negotiate.sbytes = c.sbytes ∧
    c.negotiate.position = c.position := by
  unfold Connection.negotiate
  split_ifs <;> exact ⟨rfl, rfl, rfl, rfl, rfl⟩

theorem request_header (c : Connection) : c.request.header = binaryHeaderAt c.rbuf c.rcurr := by
  obtain ⟨buf, curr, -⟩ := c.negotiate_same
  rw [← buf, ← curr]
  rfl

theorem BinaryRequest.drive_eq (h : BinaryRequest c i) (env : NetSettings) :
    (c.request.header.magic = 0x80 → c.drive env i = (c.request.dispatchBinCommand env i).past) ∧
      (c.request.header.magic ≠ 0x80 → (c.drive env i).state = .closing) := by
  have bytes : ¬ c.negotiate.rbytes < sizeofBinaryHeader := by
    rw [c.negotiate_same.2.2.1]
    exact not_lt.2 h.bytes
  have sent : ¬ (!i.msghdr) = true := by simp [h.msghdr]
  unfold Connection.drive
  rw [h.state]
  dsimp only
  unfold Connection.tryReadCommand
  dsimp only
  rw [if_pos h.binary]
  unfold Connection.tryReadBinary
  dsimp only
  rw [if_neg bytes, if_neg sent]
  constructor
  · intro magic
    have known : ¬ (binaryHeaderAt c.negotiate.rbuf c.negotiate.rcurr).magic ≠ 0x80 := not_not.2 magic
    rw [if_neg known]
    rfl
  · intro magic
    have other : (binaryHeaderAt c.negotiate.rbuf c.negotiate.rcurr).magic ≠ 0x80 := magic
    rw [if_pos other]
    rfl

theorem BinaryRequest.framed (h : BinaryRequest c i) (fits : c.request.header.bodyFits = true)
    (env : NetSettings) :
    BinFramed (c.position + sizeofBinaryHeader + c.request.header.bodylen) (c.drive env i) := by
  obtain ⟨-, -, -, sbytes, position⟩ := c.negotiate_same
  by_cases magic : c.request.header.magic = 0x80
  · have framed := dispatchBinCommand_framed (c := c.request) h.binary (sbytes.trans h.clean) rfl
      magic fits env i
    rw [(h.drive_eq env).1 magic, ← position, add_right_comm]
    exact framed.past
  · exact .of_closing ((h.drive_eq env).2 magic)

/-! ## Headers whose body does not fit -/

/-- A turn with memory but no room in the log, in which nothing arrives and everything is sent. -/
def barrenInput : Input := ⟨true, false, [], true, true, false, .response, .complete, .fail⟩

/-- The connection gets back to `conn_new_cmd` at the given place. -/
def EndsAt (env : NetSettings) (c : Connection) (at' : ℤ) : Prop :=
  ∃ is d, Run (BusyStep env) c is d ∧ d.state = .newCmd ∧ d.position = at'

theorem EndsAt.done (state : c.state = .newCmd) : EndsAt env c c.position :=
  ⟨[], c, .nil c, state, rfl⟩

theorem EndsAt.turn {at' : ℤ} (busy : c.state ≠ .newCmd)
    (ends : EndsAt env (c.drive env barrenInput) at') : EndsAt env c at' := by
  obtain ⟨is, d, run, state, eq⟩ := ends
  exact ⟨barrenInput :: is, d, .cons ⟨busy, rfl⟩ run, state, eq⟩

theorem EndsAt.sent {at' : ℤ} (binary : c.protocol = .binary) (state : c.state = .mwrite)
    (ends : EndsAt env { c with state := c.writeAndGo } at') : EndsAt env c at' := by
  refine .turn (by rw [state]; nofun) ?_
  rw [Connection.drive, state]
  dsimp only
  rw [Connection.transmit, show barrenInput.transmit = .complete from rfl]
  dsimp only
  rw [if_neg (by rw [binary]; exact fun h => h.2 rfl)]
  exact ends

theorem EndsAt.swallowed (state : c.state = .swallow) (none : c.sbytes = 0) :
    EndsAt env c c.position := by
  refine .turn (by rw [state]; nofun) ?_
  rw [Connection.drive, state]
  dsimp only
  rw [Connection.swallow, if_pos none]
  exact .done rfl

theorem EndsAt.swallowed_back (state : c.state = .swallow) (negative : c.sbytes < 0)
    (left : 0 < c.rbytes) : EndsAt env c (c.position + c.sbytes) := by
  refine .turn (by rw [state]; nofun) ?_
  rw [Connection.drive, state]
  dsimp only
  rw [Connection.swallow, if_neg negative.ne, if_pos left]
  dsimp only
  rw [if_pos (negative.trans left)]
  have ends : EndsAt env { c with
      sbytes := c.sbytes - c.sbytes
      rcurr := c.rcurr + c.sbytes
      rbytes := c.rbytes - c.sbytes } _ := swallowed state (sub_self _)
  have at' : ({ c with
      sbytes := c.sbytes - c.sbytes
      rcurr := c.rcurr + c.sbytes
      rbytes := c.rbytes - c.sbytes } : Connection).position = c.position + c.sbytes := by
    simp only [position]
    ring
  rwa [at'] at ends

/-- The key and the extras have been read, and there is more in the buffer. -/
structure AtKey (c : Connection) : Prop where
  state : c.state = .nread
  binary : c.protocol = .binary
  done : c.rlbytes = 0
  left : 0 < c.rbytes
  clean : c.sbytes = 0

theorem AtKey.turn {at' : ℤ} (h : AtKey c)
    (ends : EndsAt env (c.completeNreadBinary env barrenInput) at') : EndsAt env c at' := by
  refine .turn (by rw [h.state]; nofun) ?_
  rw [Connection.drive, h.state]
  dsimp only
  rw [Connection.nread, if_pos h.done, if_pos h.binary]
  exact ends

theorem EndsAt.writeBinResponse (binary : c.protocol = .binary) :
    EndsAt env c.writeBinResponse c.position := by
  unfold Connection.writeBinResponse
  split_ifs
  · exact .sent binary rfl (.done rfl)
  · exact .done rfl

theorem EndsAt.writeBinError {n : ℤ} (binary : c.protocol = .binary) (none : n ≤ 0) :
    EndsAt env (c.writeBinError n) c.position := by
  unfold Connection.writeBinError
  rw [if_neg (not_lt.2 none)]
  exact .sent binary rfl (.done rfl)

theorem EndsAt.writeBinError_swallow {n : ℤ} (binary : c.protocol = .binary) (none : n ≤ 0)
    (clean : c.sbytes = 0) :
    EndsAt env { c.writeBinError n with writeAndGo := .swallow } c.position := by
  unfold Connection.writeBinError
  rw [if_neg (not_lt.2 none)]
  exact .sent binary rfl (.swallowed rfl clean)

theorem AtKey.store (h : AtKey c) (sub : c.substate = .readingSetHeader)
    (negative : c.storeVlen < 0) :
    EndsAt env c c.position ∨ EndsAt env c (c.position + c.storeVlen) := by
  have store (flags : ℕ) : EndsAt env (c.binStore env barrenInput flags c.storeVlen) c.position ∨
      EndsAt env (c.binStore env barrenInput flags c.storeVlen) (c.position + c.storeVlen) := by
    unfold Connection.binStore
    rw [if_neg (show ¬ allocates env barrenInput c.header.keylen flags (toInt (c.storeVlen + 2)) = true
      by simp [allocates, barrenInput])]
    split_ifs
    · exact .inl (.writeBinError_swallow h.binary negative.le h.clean)
    · rw [Connection.outOfMemory, if_pos h.binary, Connection.writeBinError, if_neg (lt_irrefl 0)]
      exact .inr (.sent h.binary rfl (.swallowed_back rfl negative h.left))
  have complete : ∃ flags, c.completeNreadBinary env barrenInput =
      c.binStore env barrenInput flags c.storeVlen := by
    unfold Connection.completeNreadBinary storeVlen
    rw [sub]
    dsimp only
    split_ifs with joins
    · exact ⟨_, rfl⟩
    · exact ⟨_, rfl⟩
  obtain ⟨flags, eq⟩ := complete
  rcases store flags with ends | ends
  · exact .inl (h.turn (eq ▸ ends))
  · exact .inr (h.turn (eq ▸ ends))

theorem AtKey.sasl (h : AtKey c) (sub : c.substate = .readingSaslAuth)
    (negative : c.header.appendVlen < 0) : EndsAt env c c.position := by
  apply h.turn
  unfold Connection.completeNreadBinary
  rw [sub]
  dsimp only
  unfold Connection.processBinSaslAuth
  dsimp only
  split_ifs with off refused
  · exact .writeBinError h.binary negative.le
  · exact .writeBinError_swallow h.binary negative.le h.clean
  · simp [allocates, barrenInput] at refused

theorem AtKey.other (h : AtKey c) (known : ∃ extra, c.header.readsKey c.cmd = some (c.substate, extra))
    (store : c.substate ≠ .readingSetHeader) (sasl : c.substate ≠ .readingSaslAuth) :
    EndsAt env c c.position := by
  apply h.turn
  have finish : c.completeNreadBinary env barrenInput = c.writeBinResponse := by
    obtain ⟨extra, known⟩ := known
    obtain ⟨none, data, -⟩ := readsKey_state known
    unfold Connection.completeNreadBinary
    split
    · next sub => exact absurd sub store
    · next sub => exact absurd sub sasl
    · next sub => exact absurd sub data
    · next sub => exact absurd sub none
    · rfl
  rw [finish]
  exact .writeBinResponse h.binary

/-- A connection on which a header, the `n` bytes that follow it and one byte more have arrived. -/
def arrived (env : NetSettings) (buf : ℤ → UInt8) (n : ℤ) : Connection :=
  { connNew env with
    protocol := .binary
    state := .parseCmd
    authenticated := true
    rbuf := buf
    rbytes := sizeofBinaryHeader + n + 1
    received := sizeofBinaryHeader + n + 1 }

theorem dispatchCommand_key {next : BinSubstate} {extra : ℕ}
    (known : c.header.readsKey c.cmd = some (next, extra)) (env : NetSettings) (i : Input) :
    c.dispatchCommand env i = c.binReadKey next extra i.memory := by
  unfold Connection.dispatchCommand
  split
  · next cmd => rw [cmd] at known; cases known
  · next cmd => rw [cmd] at known; cases known
  · next cmd => rw [cmd] at known; cases known
  · next cmd => rw [cmd] at known; cases known
  · next cmd => rw [cmd] at known; cases known
  · next cmd => rw [cmd] at known; cases known
  · rw [known]

theorem binReadKey_room {next : BinSubstate} {extra : ℕ} {memory : Bool}
    (room : c.header.keylen + extra ≤ c.rsize - (c.rcurr + sizeofBinaryHeader)) :
    c.binReadKey next extra memory = { c with
      substate := next
      rlbytes := c.header.keylen + extra
      ritem := .buffer (c.rcurr + sizeofBinaryHeader)
      state := .nread } := by
  unfold Connection.binReadKey
  dsimp only
  rw [if_neg (not_lt.2 room)]

variable {buf : ℤ → UInt8}

theorem binaryRequest_arrived (env : NetSettings) (buf : ℤ → UInt8) {n : ℤ} (length : 0 ≤ n) :
    BinaryRequest (arrived env buf n) barrenInput where
  state := rfl
  binary := rfl
  bytes := by
    show sizeofBinaryHeader ≤ sizeofBinaryHeader + n + 1
    omega
  msghdr := rfl
  clean := rfl

theorem arrived_dispatch {n : ℤ} (magic : (binaryHeaderAt buf 0).magic = 0x80)
    (short : (binaryHeaderAt buf 0).keylen ≤ keyMaxLength) (length : 0 ≤ n) :
    (arrived env buf n).drive env barrenInput =
      ({ (arrived env buf n) with
        header := binaryHeaderAt buf 0
        cmd := (binaryHeaderAt buf 0).command.1
        noreply := (binaryHeaderAt buf 0).command.2 }.dispatchCommand env barrenInput).past := by
  rw [((binaryRequest_arrived env buf length).drive_eq env).1 magic]
  have gate : ¬ (env.sasl && !(arrived env buf n).request.isAuthenticated) = true := by
    have passed : (arrived env buf n).request.isAuthenticated = true := by
      unfold Connection.isAuthenticated
      exact Bool.or_true _
    rw [passed]
    simp
  have small : ¬ (arrived env buf n).request.header.keylen > keyMaxLength := not_lt.2 short
  rw [Connection.dispatchBinCommand, if_neg gate, if_neg small]
  rfl

theorem reads_key (state : c.state = .nread) (binary : c.protocol = .binary) (clean : c.sbytes = 0)
    (length : 0 ≤ c.rlbytes) (left : c.rlbytes < c.rbytes) (env : NetSettings) :
    ∃ d, AtKey d ∧ Reads c d ∧ ∀ at', EndsAt env d at' → EndsAt env c at' := by
  rcases length.eq_or_lt with none | more
  · refine ⟨c, ⟨state, binary, none.symm, by omega, clean⟩, ?_, fun _ => id⟩
    exact ⟨rfl, rfl, rfl, rfl, rfl, rfl, rfl⟩
  have reads := c.copyLeftovers_reads
  have done : c.copyLeftovers.rlbytes = 0 := by
    rw [Connection.copyLeftovers, if_pos (by omega)]
    dsimp only
    rw [if_pos left, sub_self]
  have rest : 0 < c.copyLeftovers.rbytes := by
    rw [Connection.copyLeftovers, if_pos (by omega)]
    dsimp only
    rw [if_pos left]
    omega
  have turn : c.drive env barrenInput = c.copyLeftovers := by
    rw [Connection.drive, state]
    dsimp only
    rw [Connection.nread, if_neg more.ne', if_neg more.le.not_gt]
    dsimp only
    rw [if_pos done]
  refine ⟨c.copyLeftovers, ⟨reads.state.trans state, reads.protocol.trans binary, done, rest,
    reads.sbytes.trans clean⟩, reads, fun at' ends => ?_⟩
  exact .turn (by rw [state]; nofun) (turn ▸ ends)

theorem arrived_key {next : BinSubstate} {extra : ℕ} (magic : (binaryHeaderAt buf 0).magic = 0x80)
    (short : (binaryHeaderAt buf 0).keylen ≤ keyMaxLength)
    (known : (binaryHeaderAt buf 0).readsKey (binaryHeaderAt buf 0).command.1 = some (next, extra))
    (env : NetSettings) :
    ∃ d, AtKey d ∧ d.substate = next ∧ d.header = binaryHeaderAt buf 0 ∧
      d.cmd = (binaryHeaderAt buf 0).command.1 ∧
      d.position = sizeofBinaryHeader + ((binaryHeaderAt buf 0).keylen + extra) ∧
      ∀ at', EndsAt env d at' →
        EndsAt env ((arrived env buf ((binaryHeaderAt buf 0).keylen + extra)).drive env barrenInput)
          at' := by
  have extras := (readsKey_state known).2.2
  have small := short
  unfold keyMaxLength at small
  rw [arrived_dispatch magic short (by omega), dispatchCommand_key known, binReadKey_room]
  swap
  · show ((binaryHeaderAt buf 0).keylen + extra : ℤ) ≤ dataBufferSize - (0 + sizeofBinaryHeader)
    unfold dataBufferSize sizeofBinaryHeader
    omega
  obtain ⟨d, key, reads, ends⟩ := reads_key (c := Connection.past { (arrived env buf
      ((binaryHeaderAt buf 0).keylen + extra)) with
    header := binaryHeaderAt buf 0
    cmd := (binaryHeaderAt buf 0).command.1
    noreply := (binaryHeaderAt buf 0).command.2
    substate := next
    rlbytes := (binaryHeaderAt buf 0).keylen + extra
    ritem := .buffer (0 + sizeofBinaryHeader)
    state := .nread }) rfl rfl rfl
    (by show (0 : ℤ) ≤ (binaryHeaderAt buf 0).keylen + extra; omega)
    (by
      show ((binaryHeaderAt buf 0).keylen + extra : ℤ) <
        sizeofBinaryHeader + ((binaryHeaderAt buf 0).keylen + extra) + 1 - sizeofBinaryHeader
      omega) env
  refine ⟨d, key, reads.substate, reads.header, reads.cmd, ?_, ends⟩
  have stop := reads.stop
  rw [key.done, position_past] at stop
  simp only [position, Connection.past, arrived, connNew] at stop ⊢
  omega

theorem writeBinError_past (c : Connection) (n : ℤ) :
    (c.writeBinError n).past = c.past.writeBinError n := by
  unfold Connection.writeBinError
  split_ifs <;> rfl

/-- The `int` made of a length that does not fit into one is negative. -/
theorem toInt_neg {z : ℤ} (low : 2 ^ 31 ≤ z) (high : z < 2 ^ 32) : toInt z = z - 2 ^ 32 := by
  rw [AllocRequest.toInt_eq]
  split_ifs <;> omega

theorem bodylen_lt (buf : ℤ → UInt8) : (binaryHeaderAt buf 0).bodylen < 2 ^ 32 :=
  AllocRequest.bigEndian_lt buf (0 + 8) 4

/-- An unknown command with a body too long for an `int`. -/
theorem unknown_ends (magic : (binaryHeaderAt buf 0).magic = 0x80)
    (short : (binaryHeaderAt buf 0).keylen ≤ keyMaxLength)
    (unknown : (binaryHeaderAt buf 0).command.1 = .unknown)
    (long : 2 ^ 31 ≤ (binaryHeaderAt buf 0).bodylen) (env : NetSettings) :
    EndsAt env ((arrived env buf 0).drive env barrenInput) sizeofBinaryHeader := by
  have large := bodylen_lt buf
  have negative : toInt (binaryHeaderAt buf 0).bodylen ≤ 0 := by
    rw [toInt_neg (by omega) (by omega)]
    omega
  rw [arrived_dispatch magic short le_rfl, Connection.dispatchCommand]
  dsimp only
  rw [unknown]
  dsimp only
  rw [writeBinError_past]
  exact .writeBinError rfl negative

theorem key_ends {next : BinSubstate} {extra : ℕ} (magic : (binaryHeaderAt buf 0).magic = 0x80)
    (short : (binaryHeaderAt buf 0).keylen ≤ keyMaxLength)
    (known : (binaryHeaderAt buf 0).readsKey (binaryHeaderAt buf 0).command.1 = some (next, extra))
    (unfit : (binaryHeaderAt buf 0).keyFits (next, extra) = false) (env : NetSettings) :
    ∃ at' ≠ sizeofBinaryHeader + ((binaryHeaderAt buf 0).bodylen : ℤ),
      EndsAt env ((arrived env buf ((binaryHeaderAt buf 0).keylen + extra)).drive env barrenInput)
        at' := by
  have large := bodylen_lt buf
  obtain ⟨d, key, sub, header, cmd, position, ends⟩ := arrived_key magic short known env
  have small := short
  unfold keyMaxLength at small
  have finish (other : (binaryHeaderAt buf 0).bodylen ≠ (binaryHeaderAt buf 0).keylen + extra)
      (at' : EndsAt env d d.position) : ∃ at' ≠ sizeofBinaryHeader + ((binaryHeaderAt buf 0).bodylen : ℤ),
      EndsAt env ((arrived env buf ((binaryHeaderAt buf 0).keylen + extra)).drive env barrenInput)
        at' := by
    refine ⟨d.position, ?_, ends _ at'⟩
    rw [position]
    omega
  cases next with
  | readingSetHeader =>
    have unfit := of_decide_eq_false unfit
    have vlen : d.storeVlen = (binaryHeaderAt buf 0).bodylen - (binaryHeaderAt buf 0).keylen - extra
        - 2 ^ 32 := by
      rw [storeVlen, cmd, header]
      unfold BinaryHeader.appendVlen BinaryHeader.updateVlen
      obtain ⟨rfl, ⟨other, -⟩ | ⟨joins, none⟩⟩ := readsKey_setHeader known
      · rw [if_neg other, toInt_neg (by omega) (by omega)]
        omega
      · rw [if_pos joins, toInt_neg (by omega) (by omega)]
        omega
    rcases key.store sub (by omega) with at' | at'
    · exact finish (by omega) at'
    · refine ⟨_, ?_, ends _ at'⟩
      rw [position, vlen]
      omega
  | readingSaslAuth =>
    have unfit := of_decide_eq_false unfit
    have none := readsKey_sasl known
    have negative : d.header.appendVlen < 0 := by
      rw [header]
      unfold BinaryHeader.appendVlen
      by_cases under : (binaryHeaderAt buf 0).bodylen < (binaryHeaderAt buf 0).keylen
      · rw [toInt_of_bounds (by omega) (by omega)]
        omega
      · rw [toInt_neg (by omega) (by omega)]
        omega
    exact finish (by omega) (key.sasl sub negative)
  | _ =>
    have unfit := of_decide_eq_false unfit
    refine finish unfit (key.other ⟨extra, ?_⟩ ?_ ?_)
    · rw [header, cmd, sub]
      exact known
    · rw [sub]
      nofun
    · rw [sub]
      nofun

/-- Whatever follows a header and however it arrives, the connection is closed or comes back to
`conn_new_cmd` exactly behind the body, if and only if the lengths in the header fit its command. -/
theorem binary_framing_iff (env : NetSettings) (buf : ℤ → UInt8) :
    (∀ c i, BinaryRequest c i → binaryHeaderAt c.rbuf c.rcurr = binaryHeaderAt buf 0 →
        ∀ is d, Run (BusyStep env) (c.drive env i) is d → d.state = .newCmd →
          d.position = c.position + sizeofBinaryHeader + (binaryHeaderAt buf 0).bodylen) ↔
      (binaryHeaderAt buf 0).bodyFits = true := by
  constructor
  · intro framing
    by_contra unfit
    have wrong {n : ℤ} (length : 0 ≤ n) {at' : ℤ}
        (ends : EndsAt env ((arrived env buf n).drive env barrenInput) at') :
        at' = sizeofBinaryHeader + (binaryHeaderAt buf 0).bodylen := by
      obtain ⟨is, d, run, state, rfl⟩ := ends
      rw [framing _ _ (binaryRequest_arrived env buf length) rfl is d run state]
      have start : (arrived env buf n).position = 0 := sub_self _
      rw [start, zero_add]
    unfold BinaryHeader.bodyFits at unfit
    simp only [Bool.or_eq_true, decide_eq_true_eq, not_or, not_not, not_lt] at unfit
    obtain ⟨⟨magic, short⟩, unfit⟩ := unfit
    cases known : (binaryHeaderAt buf 0).readsKey (binaryHeaderAt buf 0).command.1 with
    | none =>
      rw [known] at unfit
      simp only [Bool.or_eq_true, decide_eq_true_eq, not_or, not_not, not_lt] at unfit
      have at' := wrong le_rfl (unknown_ends magic short unfit.1 unfit.2 env)
      omega
    | some stages =>
      rw [known] at unfit
      obtain ⟨at', other, ends⟩ := key_ends magic short known (Bool.eq_false_iff.2 unfit) env
      exact other (wrong (by omega) ends)
  · intro fits c i request header is d run state
    rw [← header, ← request_header] at fits ⊢
    have framed := (request.framed fits env).run run
    rwa [BinFramed, state] at framed

/-- A `stat` request whose body of 24 bytes is itself the header of a `flush`. -/
def statWithBody : List UInt8 :=
  [0x80, 0x10, 0, 0, 0, 0, 0, 0, 0, 0, 0, 24, 0, 0, 0, 0, 0, 0, 0, 0, 0, 0, 0, 0,
    0x80, 0x08, 0, 0, 0, 0, 0, 0, 0, 0, 0, 0, 0, 0, 0, 0, 0, 0, 0, 0, 0, 0, 0, 0]

/-- The request has arrived on a connection that picks its protocol. -/
def statArrived : Connection :=
  [calm [], calm [], calm statWithBody].foldl (fun c e => c.handle plainNet e) (connNew plainNet)

/-- `dispatch_bin_command` does not look at the `bodylen` of a `stat`: the connection comes back to
`conn_new_cmd` right behind the header, and the body is taken for the request `flush`. -/
theorem stat_body_taken_for_request :
    BinaryRequest statArrived calmInput ∧
      ∃ d, Run (BusyStep plainNet) (statArrived.drive plainNet calmInput)
          [calmInput, calmInput] d ∧
        d.state = .newCmd ∧ d.position = statArrived.position + sizeofBinaryHeader ∧
        (binaryHeaderAt statArrived.rbuf statArrived.rcurr).bodylen = 24 ∧
        ((d.drive plainNet calmInput).drive plainNet calmInput).cmd = .flush := by
  refine ⟨⟨by decide +kernel, by decide +kernel, by decide +kernel, rfl, by decide +kernel⟩,
    _, .cons ⟨by decide +kernel, rfl⟩ (.cons ⟨by decide +kernel, rfl⟩ (.nil _)), ?_⟩
  decide +kernel

end Connection

end LogMemcached
