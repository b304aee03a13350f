import LogMemcached.NetworkSteps

/-!
# The data block of a storage command

After the header line of a storage command the connection reads the block into the item, or
swallows it when there is no item.  It comes back to `conn_new_cmd` exactly at the end of the block,
except where `out_string` takes a `noreply` as leave to return at once.
-/

namespace LogMemcached

open Transition

namespace Connection

variable {c d : Connection} {env : NetSettings} {i : Input} {n : ℕ} {handleCas : Bool}
  {line : UpdateLine} {stop : ℤ}

/-- The connection is inside a data block that ends at `stop`, behind it, or closing. -/
def Framed (stop : ℤ) (c : Connection) : Prop :=
  match c.state with
  | .nread => c.protocol ≠ .binary ∧ 0 ≤ c.rlbytes ∧ c.position + c.rlbytes = stop
  | .swallow => 0 ≤ c.sbytes ∧ c.position + c.sbytes = stop
  | .write =>
      (c.writeAndGo = .swallow ∧ 0 ≤ c.sbytes ∧ c.position + c.sbytes = stop) ∨
        (c.writeAndGo = .newCmd ∧ c.position = stop)
  | .newCmd => c.position = stop
  | .closing | .closed => True
  | _ => False

theorem Framed.close (stop : ℤ) (c : Connection) : Framed stop { c with state := .closing } := trivial

theorem outString_noreply (h : c.noreply = true) :
    c.outString = { c with noreply := false, state := .newCmd } := by
  rw [Connection.outString, if_pos h]

theorem outString_reply (h : c.noreply = false) :
    c.outString = { c with state := .write, writeAndGo := .newCmd } := by
  rw [Connection.outString, if_neg (Bool.eq_false_iff.1 h)]

theorem Framed.outString (at' : c.position = stop) : Framed stop c.outString := by
  unfold Connection.outString
  split_ifs
  · exact at'
  · exact .inr ⟨rfl, at'⟩

theorem Framed.noBytes (h : Framed stop c) (i : Input) (answer : ReadAnswer) :
    Framed stop (c.noBytes i answer) := by
  unfold Connection.noBytes
  split_ifs
  · exact h
  · exact Framed.close stop c

theorem copyLeftovers_framed (state : c.state = .nread) (length : 0 ≤ c.rlbytes) :
    c.copyLeftovers.state = .nread ∧ c.copyLeftovers.protocol = c.protocol ∧
      0 ≤ c.copyLeftovers.rlbytes ∧
      c.copyLeftovers.position + c.copyLeftovers.rlbytes = c.position + c.rlbytes := by
  unfold Connection.copyLeftovers
  by_cases some : c.rbytes > 0
  · rw [if_pos some]
    refine ⟨state, rfl, ?_, ?_⟩
    · show 0 ≤ c.rlbytes - if c.rbytes > c.rlbytes then c.rlbytes else c.rbytes
      split_ifs <;> omega
    · simp only [position]
      omega
  · rw [if_neg some]
    exact ⟨state, rfl, length, rfl⟩

theorem Framed.readItem (h : Framed stop c) (state : c.state = .nread) (i : Input) :
    Framed stop (c.readItem i) := by
  have inside : c.protocol ≠ .binary ∧ 0 ≤ c.rlbytes ∧ c.position + c.rlbytes = stop := by
    rwa [Framed, state] at h
  obtain ⟨ascii, length, at'⟩ := inside
  unfold Connection.readItem
  split
  · rename_i bytes _
    dsimp only
    by_cases empty : readUpTo c.rlbytes bytes = []
    · rw [if_pos empty]
      exact Framed.close stop c
    rw [if_neg empty]
    have fits := length_readUpTo c.rlbytes bytes
    generalize readUpTo c.rlbytes bytes = got at fits
    obtain ⟨buf, filled⟩ := c.fillItem_eq got
    rw [filled]
    unfold Framed
    rw [state]
    refine ⟨ascii, ?_, ?_⟩
    · show 0 ≤ c.rlbytes - got.length
      omega
    · unfold position at at' ⊢
      dsimp only
      omega
  · exact h.noBytes i _

theorem Framed.nread (h : Framed stop c) (state : c.state = .nread) (env : NetSettings)
    (i : Input) : Framed stop (c.nread env i) := by
  have inside : c.protocol ≠ .binary ∧ 0 ≤ c.rlbytes ∧ c.position + c.rlbytes = stop := by
    rwa [Framed, state] at h
  obtain ⟨ascii, length, at'⟩ := inside
  unfold Connection.nread
  by_cases done : c.rlbytes = 0
  · rw [if_pos done, if_neg ascii]
    exact Framed.outString (by omega)
  rw [if_neg done, if_neg (not_lt.2 length)]
  obtain ⟨state', protocol, length', same⟩ := copyLeftovers_framed state length
  have copied : Framed stop c.copyLeftovers := by
    unfold Framed
    rw [state']
    exact ⟨by rwa [protocol], length', by omega⟩
  dsimp only
  split_ifs
  · exact copied
  · exact copied.readItem state' i

theorem Framed.swallow (h : Framed stop c) (state : c.state = .swallow) (i : Input) :
    Framed stop (c.swallow i) := by
  have inside : 0 ≤ c.sbytes ∧ c.position + c.sbytes = stop := by rwa [Framed, state] at h
  obtain ⟨length, at'⟩ := inside
  have stays {d : Connection} (same : d.state = c.state) (length : 0 ≤ d.sbytes)
      (at' : d.position + d.sbytes = stop) : Framed stop d := by
    unfold Framed
    rw [same, state]
    exact ⟨length, at'⟩
  unfold Connection.swallow
  by_cases done : c.sbytes = 0
  · rw [if_pos done]
    show c.position = stop
    omega
  rw [if_neg done]
  by_cases some : c.rbytes > 0
  · rw [if_pos some]
    refine stays rfl ?_ ?_
    · show 0 ≤ c.sbytes - if c.rbytes > c.sbytes then c.sbytes else c.rbytes
      split_ifs <;> omega
    · unfold position at at' ⊢
      dsimp only
      omega
  · rw [if_neg some]
    split
    · rename_i bytes _
      dsimp only
      by_cases empty : readUpTo (if c.rsize > c.sbytes then c.sbytes else c.rsize) bytes = []
      · rw [if_pos empty]
        exact Framed.close stop c
      rw [if_neg empty]
      have fits := length_readUpTo (if c.rsize > c.sbytes then c.sbytes else c.rsize) bytes
      generalize readUpTo (if c.rsize > c.sbytes then c.sbytes else c.rsize) bytes = got at fits empty
      have := List.length_pos_iff.2 empty
      refine stays rfl ?_ ?_
      · show 0 ≤ c.sbytes - got.length
        split_ifs at fits <;> omega
      · unfold position at at' ⊢
        show c.received + got.length - c.rbytes + (c.sbytes - got.length) = stop
        omega
    · exact h.noBytes i _

theorem Framed.transmit (h : Framed stop c) (state : c.state = .write) (i : Input) :
    Framed stop (c.transmit i) := by
  unfold Connection.transmit
  split
  · rw [if_neg (by rw [state]; rintro ⟨⟨⟩, -⟩)]
    rw [Framed, state] at h
    obtain ⟨next, length, at'⟩ | ⟨next, at'⟩ := h
    · unfold Framed
      dsimp only
      rw [next]
      exact ⟨length, at'⟩
    · unfold Framed
      dsimp only
      rw [next]
      exact at'
  · exact h
  · exact h
  · exact Framed.close stop c

theorem Framed.drive (h : Framed stop c) (busy : c.state ≠ .newCmd) (env : NetSettings)
    (i : Input) : Framed stop (c.drive env i) := by
  unfold Connection.drive
  split
  · rename_i state
    rw [Framed, state] at h
    exact h.elim
  · rename_i state
    rw [Framed, state] at h
    exact h.elim
  · rename_i state
    rw [Framed, state] at h
    exact h.elim
  · rename_i state
    exact absurd state busy
  · rename_i state
    exact h.nread state env i
  · rename_i state
    exact h.swallow state i
  · rename_i state
    exact h.transmit state i
  · rename_i state
    rw [Framed, state] at h
    exact h.elim
  · trivial
  · exact h
  · exact h

/-! ## From the header line on -/

/-- The connection is about to process a line of `n` bytes that `process_update_command` parses. -/
structure HeaderLine (c : Connection) (i : Input) (n : ℕ) (handleCas : Bool) (line : UpdateLine) :
    Prop where
  state : c.state = .parseCmd
  ascii : c.negotiate.protocol ≠ .binary
  found : c.negotiate.pending.findIdx? (· == 10) = some n
  msghdr : i.msghdr = true
  kind : updateKind (tokenizeCommand (c.negotiate.lineText n)) = some handleCas
  parsed : parseUpdate (tokenizeCommand (c.negotiate.lineText n)) handleCas = some line

def quiet (c : Connection) (n : ℕ) : Bool :=
  c.negotiate.noreply || saysNoreply (tokenizeCommand (c.negotiate.lineText n))

theorem processCommand_update {text : List UInt8} (msghdr : i.msghdr = true)
    (kind : updateKind (tokenizeCommand text) = some handleCas) :
    c.processCommand env i text =
      c.processUpdateCommand env i (tokenizeCommand text) handleCas := by
  unfold Connection.processCommand
  rw [if_neg (by rw [msghdr]; decide), kind]

theorem HeaderLine.drive_eq (h : HeaderLine c i n handleCas line) (env : NetSettings) : ∃ buf,
    c.drive env i =
      let d := { c.negotiate with rbuf := buf }.processUpdateCommand env i
        (tokenizeCommand (c.negotiate.lineText n)) handleCas
      { d with rbytes := d.rbytes - (n + 1), rcurr := d.rcurr + (n + 1) } := by
  refine ⟨Function.update c.negotiate.rbuf
    (c.negotiate.rcurr + (c.negotiate.lineText n).length) 0, ?_⟩
  unfold Connection.drive
  rw [h.state]
  dsimp only
  unfold Connection.tryReadCommand
  dsimp only
  rw [if_neg h.ascii]
  unfold Connection.tryReadAscii
  rw [h.found]
  dsimp only
  rw [if_pos rfl, processCommand_update h.msghdr h.kind]

def BusyStep (env : NetSettings) (c : Connection) (i : Input) (c' : Connection) : Prop :=
  c.state ≠ .newCmd ∧ c' = c.drive env i

theorem Framed.run {is : List Input} (run : Run (BusyStep env) c is d) (h : Framed stop c) :
    Framed stop d := by
  refine run.invariant (Framed stop) ?_ h
  rintro c i _ h ⟨busy, rfl⟩
  exact h.drive busy env i

theorem HeaderLine.framed (h : HeaderLine c i n handleCas line) (env : NetSettings)
    (served : allocates env i line.key.length line.flags (line.vlen + 2) ∨ c.quiet n = false) :
    Framed ((c.drive env i).position + (line.vlen + 2)) (c.drive env i) := by
  have length := parseUpdate_vlen h.parsed
  obtain ⟨buf, eq⟩ := h.drive_eq env
  rw [eq]
  unfold Connection.processUpdateCommand
  dsimp only
  rw [h.parsed]
  dsimp only
  by_cases found : allocates env i line.key.length line.flags (line.vlen + 2)
  · rw [if_pos found]
    exact ⟨h.ascii, show 0 ≤ line.vlen + 2 by omega, rfl⟩
  · have reply : c.quiet n = false := served.resolve_left found
    rw [if_neg found, outString_reply reply]
    exact .inl ⟨rfl, show 0 ≤ line.vlen + 2 by omega, rfl⟩

/-- With `noreply` and without an item the connection is done with the command at once. -/
theorem HeaderLine.skipped (h : HeaderLine c i n handleCas line) (env : NetSettings)
    (failed : ¬(allocates env i line.key.length line.flags (line.vlen + 2) ∨ c.quiet n = false)) :
    (c.drive env i).state = .newCmd := by
  obtain ⟨missing, quiet⟩ := not_or.1 failed
  obtain ⟨buf, eq⟩ := h.drive_eq env
  rw [eq]
  unfold Connection.processUpdateCommand
  dsimp only
  rw [h.parsed]
  dsimp only
  have noreply : c.quiet n = true := Bool.of_not_eq_false quiet
  rw [if_neg missing, outString_noreply noreply]

/-- The connection is back at `conn_new_cmd` exactly behind the `vlen + 2` bytes of the block, however
they arrive, if and only if there is an item for them or the client wants a reply. -/
theorem data_block_framing_iff (h : HeaderLine c i n handleCas line) (env : NetSettings) :
    (∀ is d, Run (BusyStep env) (c.drive env i) is d → d.state = .newCmd →
        d.position = (c.drive env i).position + (line.vlen + 2)) ↔
      (allocates env i line.key.length line.flags (line.vlen + 2) ∨ c.quiet n = false) := by
  constructor
  · intro framing
    by_contra failed
    have at' := framing [] _ (.nil _) (h.skipped env failed)
    have := parseUpdate_vlen h.parsed
    omega
  · intro served is d run state
    have framed := (h.framed env served).run run
    rwa [Framed, state] at framed

def receiving (text : String) : Connection :=
  [calm [], calm [], calm text.toUTF8.toList].foldl (fun c e => c.handle plainNet e)
    (connNew plainNet)

/-- The turn of `calm`. -/
def calmInput : Input := ⟨true, false, [], true, true, true, .response, .complete, .fail⟩

/-- A `set` of one byte. -/
theorem data_block_framing_set :
    HeaderLine (receiving "set a 0 0 1\r\nx\r\n") calmInput 12 false ⟨[97], 0, 0, 1, 0⟩ ∧
      ∀ is d, Run (BusyStep plainNet)
          ((receiving "set a 0 0 1\r\nx\r\n").drive plainNet calmInput) is d →
        d.state = .newCmd → d.position = 16 := by
  have header : HeaderLine (receiving "set a 0 0 1\r\nx\r\n") calmInput 12 false ⟨[97], 0, 0, 1, 0⟩ :=
    ⟨by decide +kernel, by decide +kernel, by decide +kernel, by decide +kernel, by decide +kernel,
      by decide +kernel⟩
  refine ⟨header, fun is d run state => ?_⟩
  rw [(data_block_framing_iff header plainNet).2 (.inl (by decide +kernel)) is d run state]
  decide +kernel

def smuggled : Connection := receiving "set a 0 0 1073741824 noreply\r\nset b 0 0 1\r\n"

/-- There is no room for the record, and `noreply` sends the connection back to `conn_new_cmd` at the
start of the block: the value is taken for the command `set b`. -/
theorem value_taken_for_command :
    (smuggled.drive plainNet calmInput).state = .newCmd ∧
      (smuggled.drive plainNet calmInput).position = 30 ∧
      (((smuggled.drive plainNet calmInput).drive plainNet calmInput).drive plainNet
        calmInput).state = .nread ∧
      (((smuggled.drive plainNet calmInput).drive plainNet calmInput).drive plainNet
        calmInput).ritem = .item 0 3 := by
  decide +kernel

end Connection

end LogMemcached
