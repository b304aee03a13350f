import LogMemcached.Lib.CText

/-!
# Assembling a response

A response is a list of `msghdr`s over one list of `iovec`s.  `add_iov` appends a buffer to the
last message, or starts a new one when that is full; both lists are reallocated as they grow, and
each message keeps a pointer into the `iovec` list.  An allocation is numbered, so that a pointer
into a list that was moved is seen to be stale.
-/

namespace LogMemcached

/-! ## The lists of a connection -/

/-- A pointer into the `iov` list: the allocation and the entry. -/
structure IovPtr where
  block : ℕ
  index : ℕ
deriving DecidableEq, Repr

/-- What an `iovec` points at: nothing, bytes of the response, or a place in `hdrbuf`. -/
inductive IovBase
  | null
  | bytes (content : List UInt8)
  | hdr (offset : ℕ)
deriving DecidableEq, Repr

def IovBase.advance (n : ℕ) : IovBase → IovBase
  | null => null
  | bytes content => bytes (content.drop n)
  | hdr offset => hdr (offset + n)

/-- `struct iovec`. -/
structure Iovec where
  base : IovBase
  len : ℕ
deriving DecidableEq, Repr

/-- `struct msghdr`. -/
structure Msghdr where
  msgIov : IovPtr
  msgIovlen : ℕ
deriving DecidableEq, Repr

/-- The fields of a `conn` that hold the response.  `iov` has `iovsize` entries and lies in the
allocation `block`; `msglist` are the `msgused` messages in use; `hdrbuf` is NULL when it is empty.
`overrun` is set by a write outside the lists. -/
structure Outgoing where
  udp : Bool
  requestId : ℕ
  iov : List Iovec
  block : ℕ
  iovused : ℕ
  msglist : List Msghdr
  msgsize : ℕ
  msgcurr : ℕ
  msgbytes : ℤ
  hdrbuf : List UInt8
  hdrsize : ℕ
  overrun : Bool
deriving DecidableEq, Repr

/-- `UDP_MAX_PAYLOAD_SIZE`. -/
def udpMaxPayloadSize : ℕ := 1400

/-- `UDP_HEADER_SIZE`. -/
def udpHeaderSize : ℕ := 8

/-- `IOV_MAX`. -/
def iovMax : ℕ := 1024

/-- The value of an `int` expression. -/
def int (x : ℤ) : ℤ := Int.bmod x (2 ^ 32)

namespace Outgoing

/-- A store through a pointer into the `iov` list. -/
def writeIov (c : Outgoing) (p : IovPtr) (v : Iovec) : Outgoing :=
  if p.block = c.block ∧ p.index < c.iov.length then { c with iov := c.iov.set p.index v }
  else { c with overrun := true }

/-- Point all the messages at the list in `block`. -/
def repoint (block : ℕ) : ℕ → List Msghdr → List Msghdr
  | _, [] => []
  | iovnum, m :: ms =>
      { m with msgIov := ⟨block, iovnum⟩ } :: repoint block (iovnum + m.msgIovlen) ms

/-- `ensure_iov_space`, where `realloc` moves the list. -/
def ensureIovSpace (c : Outgoing) : Outgoing :=
  if c.iovused ≥ c.iov.length then
    { c with
      iov := c.iov ++ List.replicate c.iov.length ⟨.null, 0⟩
      block := c.block + 1
      msglist := repoint (c.block + 1) 0 c.msglist }
  else c

/-- `add_msghdr` up to the space for the UDP header. -/
def newMsghdr (c : Outgoing) : Outgoing :=
  let msgsize := if c.msgsize = c.msglist.length then c.msgsize * 2 else c.msgsize
  { c with
    msgsize
    msglist := c.msglist ++ [⟨⟨c.block, c.iovused⟩, 0⟩]
    msgbytes := 0
    overrun := c.overrun || decide (msgsize ≤ c.msglist.length) }

def lastFull (c : Outgoing) (limitToMtu : Bool) : Bool :=
  c.msglist.getLast?.any (·.msgIovlen == iovMax) ||
    (limitToMtu && decide (c.msgbytes ≥ udpMaxPayloadSize))

/-- The part of a fragment of length `len` that does not fit. -/
def leftover (c : Outgoing) (limitToMtu : Bool) (len : ℕ) : ℕ :=
  if limitToMtu && decide (int (len + c.msgbytes) > udpMaxPayloadSize) then
    (int (len + c.msgbytes) - udpMaxPayloadSize).toNat
  else 0

def pushIov (c : Outgoing) (v : Iovec) : Outgoing :=
  match c.msglist.getLast? with
  | none => { c with overrun := true }
  | some m =>
      { c.writeIov ⟨m.msgIov.block, m.msgIov.index + m.msgIovlen⟩ v with
        msgbytes := int (c.msgbytes + v.len)
        iovused := c.iovused + 1
        msglist := c.msglist.dropLast ++ [{ m with msgIovlen := m.msgIovlen + 1 }] }

/-- The loop of `add_iov`, with what it does to start a message; `none` when it is still running
after `fuel` turns. -/
def addIovLoop (start : Outgoing → Option Outgoing) :
    ℕ → Outgoing → IovBase → ℕ → Option Outgoing
  | 0, _, _, _ => none
  | fuel + 1, c, buf, len =>
      let limitToMtu := c.udp || c.msglist.length == 1
      (if c.lastFull limitToMtu then start c else some c).bind fun c =>
        let c := c.ensureIovSpace
        let rest := c.leftover limitToMtu len
        let c := c.pushIov ⟨buf, len - rest⟩
        if rest > 0 then addIovLoop start fuel c (buf.advance (len - rest)) rest else some c

/-- `add_msghdr`.  The space for the UDP header is the first entry of the message, so it starts no
further message. -/
def addMsghdr (c : Outgoing) : Option Outgoing :=
  let c := c.newMsghdr
  if c.udp then addIovLoop (fun _ => none) 1 c .null udpHeaderSize else some c

/-- `add_iov`. -/
def addIov (c : Outgoing) (buf : List UInt8) : Option Outgoing :=
  addIovLoop addMsghdr (buf.length + 1) c (.bytes buf) buf.length

/-- The calls of `add_iov` for the buffers of a response. -/
def addIovs : List (List UInt8) → Outgoing → Option Outgoing
  | [], c => some c
  | buf :: bufs, c => (c.addIov buf).bind (addIovs bufs)

def respond (c : Outgoing) (bufs : List (List UInt8)) : Option Outgoing :=
  ({ c with msgcurr := 0, msglist := [], iovused := 0 }.addMsghdr).bind (addIovs bufs)

end Outgoing

/-! ## Messages over consecutive entries -/

/-- The messages stand one after the other over the entries from `index` on, each with its group. -/
def Laid (block : ℕ) : ℕ → List Msghdr → List (List Iovec) → Prop
  | _, [], [] => True
  | index, m :: ms, g :: gs =>
      m = ⟨⟨block, index⟩, g.length⟩ ∧ Laid block (index + g.length) ms gs
  | _, _, _ => False

namespace Laid

variable {block index : ℕ} {ms : List Msghdr} {gs : List (List Iovec)}

theorem length_eq (h : Laid block index ms gs) : ms.length = gs.length := by
  induction ms generalizing index gs with
  | nil =>
    cases gs with
    | nil => rfl
    | cons g gs => exact h.elim
  | cons m ms ih =>
    cases gs with
    | nil => exact h.elim
    | cons g gs => rw [List.length_cons, List.length_cons, ih h.2]

theorem snoc (h : Laid block index ms gs) (g : List Iovec) :
    Laid block index (ms ++ [⟨⟨block, index + gs.flatten.length⟩, g.length⟩]) (gs ++ [g]) := by
  induction ms generalizing index gs with
  | nil =>
    cases gs with
    | nil => exact ⟨rfl, trivial⟩
    | cons g gs => exact h.elim
  | cons m ms ih =>
    cases gs with
    | nil => exact h.elim
    | cons g' gs =>
      refine ⟨h.1, ?_⟩
      rw [List.flatten_cons, List.length_append, ← Nat.add_assoc]
      exact ih h.2

theorem of_snoc {g : List Iovec} (h : Laid block index ms (gs ++ [g])) :
    ∃ before, ms = before ++ [⟨⟨block, index + gs.flatten.length⟩, g.length⟩] ∧
      Laid block index before gs := by
  induction gs generalizing index ms with
  | nil =>
    match ms, h with
    | [m], h => exact ⟨[], by rw [h.1]; rfl, trivial⟩
  | cons g' gs ih =>
    match ms, h with
    | m :: ms, h =>
      obtain ⟨before, rest, laid⟩ := ih h.2
      refine ⟨m :: before, ?_, h.1, laid⟩
      rw [rest, List.flatten_cons, List.length_append, Nat.add_assoc]
      rfl

theorem repoint (h : Laid block index ms gs) (other start : ℕ) :
    Laid other start (Outgoing.repoint other start ms) gs := by
  induction ms generalizing index start gs with
  | nil =>
    cases gs with
    | nil => trivial
    | cons g gs => exact h.elim
  | cons m ms ih =>
    cases gs with
    | nil => exact h.elim
    | cons g gs =>
      obtain ⟨rfl, rest⟩ := h
      exact ⟨rfl, ih rest _⟩

end Laid

/-! ## The response while it is built -/

structure Building (c : Outgoing) (groups : List (List Iovec)) : Prop where
  laid : Laid c.block 0 c.msglist groups
  stored : groups.flatten <+: c.iov
  used : c.iovused = groups.flatten.length
  iovPositive : 0 < c.iov.length
  msgPositive : 0 < c.msgsize
  msgs : c.msglist.length ≤ c.msgsize
  inside : c.overrun = false
  first : c.msgcurr = 0

structure SameSocket (c c' : Outgoing) : Prop where
  udp : c'.udp = c.udp
  requestId : c'.requestId = c.requestId
  hdrbuf : c'.hdrbuf = c.hdrbuf
  hdrsize : c'.hdrsize = c.hdrsize

theorem SameSocket.refl (c : Outgoing) : SameSocket c c := ⟨rfl, rfl, rfl, rfl⟩

theorem SameSocket.trans {c c' c'' : Outgoing} (h : SameSocket c c') (h' : SameSocket c' c'') :
    SameSocket c c'' :=
  ⟨h'.udp.trans h.udp, h'.requestId.trans h.requestId, h'.hdrbuf.trans h.hdrbuf,
    h'.hdrsize.trans h.hdrsize⟩

namespace Building

variable {c : Outgoing} {groups : List (List Iovec)} {g : List Iovec}

theorem iovused_le (h : Building c groups) : c.iovused ≤ c.iov.length := by
  rw [h.used]
  exact h.stored.length_le

theorem newMsghdr (h : Building c groups) : Building c.newMsghdr (groups ++ [[]]) := by
  have grown : c.msglist.length < c.newMsghdr.msgsize := by
    have := h.msgs
    have := h.msgPositive
    simp only [Outgoing.newMsghdr]
    split <;> omega
  refine ⟨?_, ?_, ?_, h.iovPositive, by omega, ?_, ?_, h.first⟩
  · have laid := h.laid.snoc []
    rw [Nat.zero_add, ← h.used] at laid
    exact laid
  · rw [List.flatten_append, List.flatten_singleton, List.append_nil]
    exact h.stored
  · rw [List.flatten_append, List.flatten_singleton, List.append_nil]
    exact h.used
  · simp only [Outgoing.newMsghdr, List.length_append, List.length_singleton] at grown ⊢
    omega
  · have := h.inside
    simp only [Outgoing.newMsghdr] at grown ⊢
    simp [this, grown]

theorem ensureIovSpace (h : Building c groups) : Building c.ensureIovSpace groups := by
  rw [Outgoing.ensureIovSpace]
  split
  · refine ⟨h.laid.repoint _ _, h.stored.trans (List.prefix_append _ _), h.used, ?_, h.msgPositive,
      ?_, h.inside, h.first⟩
    · have := h.iovPositive
      simp only [List.length_append, List.length_replicate]
      omega
    · rw [(h.laid.repoint (c.block + 1) 0).length_eq, ← h.laid.length_eq]
      exact h.msgs
  · exact h

theorem iovused_lt (h : Building c groups) :
    c.ensureIovSpace.iovused < c.ensureIovSpace.iov.length := by
  have := h.iovused_le
  have := h.iovPositive
  rw [Outgoing.ensureIovSpace]
  split
  · simp only [List.length_append, List.length_replicate]
    omega
  · omega

theorem pushIov (h : Building c (groups ++ [g])) (space : c.iovused < c.iov.length) (v : Iovec) :
    Building (c.pushIov v) (groups ++ [g ++ [v]]) := by
  obtain ⟨before, msglist, laid⟩ := h.laid.of_snoc
  rw [Nat.zero_add] at msglist
  have last : c.msglist.getLast? = some ⟨⟨c.block, groups.flatten.length⟩, g.length⟩ := by
    rw [msglist, List.getLast?_concat]
  have used : c.iovused = groups.flatten.length + g.length := by
    simpa using h.used
  -- The entry after those of the last message is the first free one.
  have write : c.writeIov ⟨c.block, groups.flatten.length + g.length⟩ v =
      { c with iov := c.iov.set c.iovused v } := by
    rw [Outgoing.writeIov, if_pos ⟨rfl, used ▸ space⟩, used]
  have pushed : c.pushIov v =
      { c with
        iov := c.iov.set c.iovused v
        msgbytes := int (c.msgbytes + v.len)
        iovused := c.iovused + 1
        msglist := before ++ [⟨⟨c.block, groups.flatten.length⟩, (g ++ [v]).length⟩] } := by
    simp only [Outgoing.pushIov, last, write]
    simp [msglist]
  rw [pushed]
  refine ⟨?_, ?_, ?_, ?_, h.msgPositive, ?_, h.inside, h.first⟩
  · have next := laid.snoc (g ++ [v])
    rw [Nat.zero_add] at next
    exact next
  · obtain ⟨free, stored⟩ := h.stored
    have split : (groups ++ [g ++ [v]]).flatten = (groups ++ [g]).flatten ++ [v] := by simp
    have length : c.iovused = (groups ++ [g]).flatten.length := h.used
    cases free with
    | nil =>
      rw [List.append_nil] at stored
      rw [length, stored] at space
      exact absurd space (Nat.lt_irrefl _)
    | cons v' free =>
      refine ⟨free, ?_⟩
      rw [split, ← stored, length, List.set_append_right _ _ (Nat.le_refl _)]
      simp
  · simp [used, Nat.add_assoc]
  · simpa using h.iovPositive
  · have := h.msgs
    simp only [msglist, List.length_append, List.length_singleton] at this ⊢
    omega

end Building

namespace Outgoing

variable (c : Outgoing)

theorem sameSocket_newMsghdr : SameSocket c c.newMsghdr := ⟨rfl, rfl, rfl, rfl⟩

theorem sameSocket_ensureIovSpace : SameSocket c c.ensureIovSpace := by
  rw [ensureIovSpace]
  split
  · exact ⟨rfl, rfl, rfl, rfl⟩
  · exact .refl c

theorem sameSocket_writeIov (p : IovPtr) (v : Iovec) : SameSocket c (c.writeIov p v) := by
  rw [writeIov]
  split <;> exact ⟨rfl, rfl, rfl, rfl⟩

theorem sameSocket_pushIov (v : Iovec) : SameSocket c (c.pushIov v) := by
  rw [pushIov]
  split
  · exact ⟨rfl, rfl, rfl, rfl⟩
  · rename_i m _
    have write := c.sameSocket_writeIov ⟨m.msgIov.block, m.msgIov.index + m.msgIovlen⟩ v
    exact ⟨write.udp, write.requestId, write.hdrbuf, write.hdrsize⟩

end Outgoing

/-! ## Filling the messages -/

def Iovec.Plain (v : Iovec) : Prop := ∃ content, v.base = .bytes content ∧ v.len ≤ content.length

def Iovec.bytes (hdrbuf : List UInt8) (v : Iovec) : List UInt8 :=
  match v.base with
  | .null => []
  | .bytes content => content.take v.len
  | .hdr offset => (hdrbuf.drop offset).take v.len

theorem Iovec.Plain.bytes_eq {v : Iovec} (plain : v.Plain) (hdrbuf : List UInt8) :
    v.bytes hdrbuf = v.bytes [] := by
  obtain ⟨content, base, -⟩ := plain
  simp only [Iovec.bytes, base]

theorem Iovec.Plain.length_bytes {v : Iovec} (plain : v.Plain) (hdrbuf : List UInt8) :
    (v.bytes hdrbuf).length = v.len := by
  obtain ⟨content, base, le⟩ := plain
  simp only [Iovec.bytes, base, List.length_take]
  omega

/-- The space that `add_msghdr` leaves for the UDP header. -/
def headerSlot : Iovec := ⟨.null, udpHeaderSize⟩

def freshGroup (udp : Bool) : List Iovec := if udp then [headerSlot] else []

def payload (udp : Bool) (groups : List (List Iovec)) : List Iovec :=
  groups.flatMap fun g => if udp then g.tail else g

def groupSize (g : List Iovec) : ℕ := (g.map Iovec.len).sum

/-- The limits of a message; a datagram starts with the space for its header. -/
structure Limits (udp : Bool) (g : List Iovec) : Prop where
  short : g.length ≤ iovMax
  slot : udp = true → g.head? = some headerSlot
  limited : udp = true → groupSize g ≤ udpMaxPayloadSize

structure Formed (c : Outgoing) (groups : List (List Iovec)) : Prop where
  building : Building c groups
  limits : ∀ g ∈ groups, Limits c.udp g

/-- The messages of a response that is being built, where `g` are the entries of the last one. -/
structure Packed (c : Outgoing) (gs : List (List Iovec)) (g : List Iovec) : Prop where
  formed : Formed c (gs ++ [g])
  counted : c.msgbytes = int (groupSize g)

/-- The entries that `add_iov` makes of a buffer. -/
structure Fragments (vs : List Iovec) (buf : List UInt8) : Prop where
  plain : ∀ v ∈ vs, v.Plain
  content : vs.flatMap (Iovec.bytes []) = buf
  positive : buf ≠ [] → ∀ v ∈ vs, 0 < v.len

theorem int_range (x : ℤ) : -2 ^ 31 ≤ int x ∧ int x < 2 ^ 31 := by
  obtain ⟨-, -, low, high⟩ := CText.bmod_spec x
  exact ⟨low, high⟩

theorem int_eq {x : ℤ} (low : -2 ^ 31 ≤ x) (high : x < 2 ^ 31) : int x = x := by
  obtain ⟨k, eq, low', high'⟩ := CText.bmod_spec x
  unfold int
  omega

theorem int_add (a b : ℤ) : int (int a + b) = int (a + b) := Int.bmod_add_bmod

theorem forall_mem_snoc {α : Type} {p : α → Prop} {xs : List α} {x : α} (earlier : ∀ y ∈ xs, p y)
    (last : p x) : ∀ y ∈ xs ++ [x], p y := by
  intro y mem
  rcases List.mem_append.1 mem with mem | mem
  · exact earlier y mem
  · rw [List.mem_singleton.1 mem]
    exact last

theorem Building.packed_pushIov {c : Outgoing} {gs : List (List Iovec)} {g : List Iovec}
    {v : Iovec} (h : Building c (gs ++ [g])) (earlier : ∀ g' ∈ gs, Limits c.udp g')
    (counted : c.msgbytes = int (groupSize g)) (space : c.iovused < c.iov.length)
    (last : Limits c.udp (g ++ [v])) : Packed (c.pushIov v) gs (g ++ [v]) := by
  refine ⟨⟨h.pushIov space v, ?_⟩, ?_⟩
  · rw [(c.sameSocket_pushIov v).udp]
    exact forall_mem_snoc earlier last
  · obtain ⟨before, msglist, -⟩ := h.laid.of_snoc
    have bytes : (c.pushIov v).msgbytes = int (c.msgbytes + v.len) := by
      rw [Outgoing.pushIov, msglist, List.getLast?_concat]
    rw [bytes, counted, int_add]
    simp [groupSize]

theorem Outgoing.msgbytes_ensureIovSpace (c : Outgoing) :
    c.ensureIovSpace.msgbytes = c.msgbytes := by
  rw [Outgoing.ensureIovSpace]
  split <;> rfl

theorem Packed.ensureIovSpace {c : Outgoing} {gs : List (List Iovec)} {g : List Iovec}
    (h : Packed c gs g) : Packed c.ensureIovSpace gs g := by
  refine ⟨⟨h.formed.building.ensureIovSpace, ?_⟩, c.msgbytes_ensureIovSpace.trans h.counted⟩
  rw [c.sameSocket_ensureIovSpace.udp]
  exact h.formed.limits

theorem Formed.addMsghdr {c : Outgoing} {groups : List (List Iovec)} (h : Formed c groups) :
    ∃ c', c.addMsghdr = some c' ∧ SameSocket c c' ∧ Packed c' groups (freshGroup c.udp) := by
  have started := h.building.newMsghdr
  have same := c.sameSocket_newMsghdr
  have space := started.iovused_lt
  cases transport : c.udp with
  | false =>
    refine ⟨c.newMsghdr, ?_, same, ⟨started, ?_⟩, rfl⟩
    · rw [Outgoing.addMsghdr, if_neg (by rw [same.udp, transport]; exact Bool.false_ne_true)]
    · rw [same.udp]
      refine forall_mem_snoc h.limits ⟨Nat.zero_le _, ?_, ?_⟩
      · exact fun udp => absurd (transport.symm.trans udp) Bool.false_ne_true
      · exact fun _ => Nat.zero_le _
  | true =>
    have grown := c.newMsghdr.sameSocket_ensureIovSpace
    have empty : c.newMsghdr.lastFull true = false := by
      simp only [Outgoing.lastFull, Outgoing.newMsghdr, List.getLast?_concat]
      rfl
    have fits : c.newMsghdr.ensureIovSpace.leftover true udpHeaderSize = 0 := by
      have zero : c.newMsghdr.msgbytes = 0 := rfl
      rw [Outgoing.leftover, c.newMsghdr.msgbytes_ensureIovSpace, zero]
      decide
    refine ⟨c.newMsghdr.ensureIovSpace.pushIov headerSlot, ?_,
      (same.trans grown).trans (Outgoing.sameSocket_pushIov _ _), ?_⟩
    · rw [Outgoing.addMsghdr, if_pos (same.udp.trans transport), Outgoing.addIovLoop]
      simp only [same.udp, transport, Bool.true_or, empty, if_neg Bool.false_ne_true,
        Option.bind_some, fits]
      rfl
    · refine started.ensureIovSpace.packed_pushIov ?_ ?_ space ?_
      · rw [grown.udp, same.udp]
        exact h.limits
      · exact c.newMsghdr.msgbytes_ensureIovSpace
      · exact ⟨by decide, fun _ => rfl, fun _ => by decide⟩

/-! ## Adding buffers -/

def Begun (groups : List (List Iovec)) : Prop := ∀ g ∈ groups.tail, g ≠ []

/-- The entries `vs` have been added behind the messages. -/
structure Adds (c : Outgoing) (groups : List (List Iovec)) (c' : Outgoing)
    (groups' : List (List Iovec)) (vs : List Iovec) : Prop where
  same : SameSocket c c'
  payload_eq : payload c.udp groups' = payload c.udp groups ++ vs
  begun : Begun groups → Begun groups'

theorem Adds.trans {c c' c'' : Outgoing} {groups groups' groups'' : List (List Iovec)}
    {vs vs' : List Iovec} (h : Adds c groups c' groups' vs) (h' : Adds c' groups' c'' groups'' vs') :
    Adds c groups c'' groups'' (vs ++ vs') := by
  refine ⟨h.same.trans h'.same, ?_, fun begun => h'.begun (h.begun begun)⟩
  have second := h'.payload_eq
  rw [h.same.udp] at second
  rw [second, h.payload_eq, List.append_assoc]

theorem payload_snoc {udp : Bool} {g : List Iovec} (slot : udp = true → g ≠ [])
    (gs : List (List Iovec)) (v : Iovec) :
    payload udp (gs ++ [g ++ [v]]) = payload udp (gs ++ [g]) ++ [v] := by
  cases udp with
  | false => simp [payload]
  | true =>
    have tail : (g ++ [v]).tail = g.tail ++ [v] := List.tail_append_of_ne_nil (slot rfl)
    simp [payload, tail]

theorem payload_freshGroup (udp : Bool) (gs : List (List Iovec)) :
    payload udp (gs ++ [freshGroup udp]) = payload udp gs := by
  cases udp <;> simp [payload, freshGroup]

theorem begun_snoc {gs : List (List Iovec)} {g g' : List Iovec} (h : Begun (gs ++ [g]))
    (entry : g' ≠ []) : Begun (gs ++ [g']) := by
  cases gs with
  | nil => simp [Begun]
  | cons first gs =>
    simp only [Begun, List.cons_append, List.tail_cons, List.mem_append, List.mem_singleton] at h ⊢
    rintro x (mem | rfl)
    · exact h x (.inl mem)
    · exact entry

theorem begun_append {gs : List (List Iovec)} {g : List Iovec} (h : Begun gs) (entry : g ≠ []) :
    Begun (gs ++ [g]) := by
  cases gs with
  | nil => simp [Begun]
  | cons first gs =>
    simp only [Begun, List.cons_append, List.tail_cons, List.mem_append, List.mem_singleton] at h ⊢
    rintro x (mem | rfl)
    · exact h x mem
    · exact entry

namespace Packed

variable {c : Outgoing} {gs : List (List Iovec)} {g : List Iovec}

theorem last_limits (h : Packed c gs g) : Limits c.udp g := h.formed.limits g (by simp)

theorem slot (h : Packed c gs g) (udp : c.udp = true) : g ≠ [] := by
  rintro rfl
  cases h.last_limits.slot udp

theorem lastFull_eq (h : Packed c gs g) (limitToMtu : Bool) :
    c.lastFull limitToMtu =
      (g.length == iovMax || (limitToMtu && decide (c.msgbytes ≥ udpMaxPayloadSize))) := by
  obtain ⟨before, msglist, -⟩ := h.formed.building.laid.of_snoc
  rw [Outgoing.lastFull, msglist, List.getLast?_concat]
  rfl

/-- Where the next entry goes: the last message, or a new one when that is full. -/
structure Room (c : Outgoing) (groups : List (List Iovec)) (limitToMtu : Bool) (c' : Outgoing)
    (gs' : List (List Iovec)) (g' : List Iovec) : Prop where
  packed : Packed c' gs' g'
  same : SameSocket c c'
  payload_eq : payload c.udp (gs' ++ [g']) = payload c.udp groups
  short : g'.length < iovMax
  below : limitToMtu = true → c'.msgbytes < udpMaxPayloadSize
  begun : Begun groups → ∀ v, Begun (gs' ++ [g' ++ [v]])

theorem room (h : Packed c gs g) (limitToMtu : Bool) :
    ∃ c' gs' g', (if c.lastFull limitToMtu then c.addMsghdr else some c) = some c' ∧
      Room c (gs ++ [g]) limitToMtu c' gs' g' := by
  rw [h.lastFull_eq]
  by_cases full : (g.length == iovMax ||
      (limitToMtu && decide (c.msgbytes ≥ udpMaxPayloadSize))) = true
  · obtain ⟨c', started, same, packed⟩ := h.formed.addMsghdr
    refine ⟨c', gs ++ [g], freshGroup c.udp, by rw [if_pos full, started], packed, same,
      payload_freshGroup _ _, ?_, fun _ => ?_, fun begun v => begun_append begun (by simp)⟩
    · cases c.udp <;> decide
    · rw [packed.counted]
      cases c.udp <;> decide
  · refine ⟨c, gs, g, if_neg full, h, .refl c, rfl, ?_, ?_, fun begun v =>
      begun_snoc begun (by simp)⟩
    · have short := h.last_limits.short
      simp at full
      omega
    · rintro rfl
      simp at full
      omega

theorem push (h : Packed c gs g) {v : Iovec} (short : g.length < iovMax)
    (limited : c.udp = true → groupSize g + v.len ≤ udpMaxPayloadSize) :
    Packed (c.ensureIovSpace.pushIov v) gs (g ++ [v]) ∧
      SameSocket c (c.ensureIovSpace.pushIov v) := by
  have same := c.sameSocket_ensureIovSpace
  have grown := h.ensureIovSpace
  refine ⟨grown.formed.building.packed_pushIov ?_ grown.counted h.formed.building.iovused_lt ?_,
    same.trans (Outgoing.sameSocket_pushIov _ _)⟩
  · exact fun g' mem => grown.formed.limits g' (by simp [mem])
  · rw [same.udp]
    refine ⟨by simpa using short, fun udp => ?_, fun udp => ?_⟩
    · rw [List.head?_append_of_ne_nil _ (h.slot udp)]
      exact h.last_limits.slot udp
    · have := limited udp
      simpa [groupSize] using this

end Packed

/-- The part of a fragment that is left over is shorter than the fragment, and what is taken fits. -/
theorem leftover_spec {c : Outgoing} {limitToMtu : Bool} {len : ℕ} (size : len < 2 ^ 31)
    (bytes : -2 ^ 31 ≤ c.msgbytes) (below : limitToMtu = true → c.msgbytes < udpMaxPayloadSize) :
    c.leftover limitToMtu len ≤ len ∧ (0 < len → c.leftover limitToMtu len < len) ∧
      (limitToMtu = true → len + udpMaxPayloadSize < 2 ^ 31 → 0 ≤ c.msgbytes →
        c.msgbytes + (len - c.leftover limitToMtu len : ℕ) ≤ udpMaxPayloadSize) := by
  have wrap : int (len + c.msgbytes) ≤ len + c.msgbytes := by
    obtain ⟨k, eq, low, high⟩ := CText.bmod_spec (len + c.msgbytes)
    unfold int
    omega
  rw [Outgoing.leftover]
  by_cases split : (limitToMtu && decide (int (len + c.msgbytes) > udpMaxPayloadSize)) = true
  · rw [if_pos split]
    simp only [Bool.and_eq_true, decide_eq_true_eq] at split
    have low := below split.1
    refine ⟨by omega, fun _ => by omega, fun _ small positive => ?_⟩
    rw [int_eq (by omega) (by push_cast [udpMaxPayloadSize] at *; omega)] at split ⊢
    omega
  · rw [if_neg split]
    refine ⟨Nat.zero_le _, id, fun limit small positive => ?_⟩
    simp only [limit, Bool.true_and, decide_eq_true_eq] at split
    rw [int_eq (by omega) (by have := below limit; push_cast [udpMaxPayloadSize] at *; omega)] at split
    omega

theorem Fragments.single {content : List UInt8} :
    Fragments [⟨.bytes content, content.length⟩] content where
  plain := by
    simp only [List.mem_singleton]
    rintro v rfl
    exact ⟨content, rfl, Nat.le_refl _⟩
  content := by simp [Iovec.bytes]
  positive := by
    simp only [List.mem_singleton]
    rintro nonempty v rfl
    exact List.length_pos_iff.2 nonempty

theorem Fragments.cons {content : List UInt8} {n : ℕ} {vs : List Iovec} (positive : 0 < n)
    (inside : n < content.length) (h : Fragments vs (content.drop n)) :
    Fragments (⟨.bytes content, n⟩ :: vs) content where
  plain := by
    simp only [List.mem_cons]
    rintro v (rfl | mem)
    · exact ⟨content, rfl, inside.le⟩
    · exact h.plain v mem
  content := by
    rw [List.flatMap_cons, h.content]
    exact List.take_append_drop n content
  positive := by
    simp only [List.mem_cons]
    rintro - v (rfl | mem)
    · exact positive
    · exact h.positive (by simpa using inside) v mem

/-- By induction on the turns of the loop: `add_iov` adds fragments of the buffer, each to a message
that has room for it. -/
theorem Packed.addIovLoop {c : Outgoing} {gs : List (List Iovec)} {g : List Iovec}
    (h : Packed c gs g) {content : List UInt8} (size : content.length < 2 ^ 31)
    (datagrams : c.udp = true → content.length + udpMaxPayloadSize < 2 ^ 31) {fuel : ℕ}
    (enough : content.length < fuel) :
    ∃ c' gs' g' vs,
      Outgoing.addIovLoop Outgoing.addMsghdr fuel c (.bytes content) content.length = some c' ∧
        Packed c' gs' g' ∧ Adds c (gs ++ [g]) c' (gs' ++ [g']) vs ∧ Fragments vs content := by
  induction fuel generalizing c gs g content with
  | zero => exact absurd enough (Nat.not_lt_zero _)
  | succ fuel ih =>
    rw [Outgoing.addIovLoop]
    dsimp only
    obtain ⟨c₁, gs₁, g₁, started, room⟩ := h.room (c.udp || c.msglist.length == 1)
    rw [started, Option.bind_some]
    have counted := c₁.msgbytes_ensureIovSpace
    have low : -2 ^ 31 ≤ c₁.ensureIovSpace.msgbytes := by
      rw [counted, room.packed.counted]
      exact (int_range _).1
    obtain ⟨le, lt, fits⟩ := leftover_spec size low (by rw [counted]; exact room.below)
    generalize c₁.ensureIovSpace.leftover (c.udp || c.msglist.length == 1) content.length = rest
      at le lt fits ⊢
    have limited : c₁.udp = true →
        groupSize g₁ + (content.length - rest) ≤ udpMaxPayloadSize := by
      intro udp
      have bytes : c₁.msgbytes = groupSize g₁ := by
        have := room.packed.last_limits.limited udp
        rw [room.packed.counted, int_eq (by omega)]
        simp only [udpMaxPayloadSize] at this
        omega
      rw [room.same.udp] at udp
      have := fits (by rw [udp]; rfl) (datagrams udp) (by rw [counted, bytes]; omega)
      rw [counted, bytes] at this
      omega
    obtain ⟨packed, same⟩ := room.packed.push (v := ⟨.bytes content, content.length - rest⟩)
      room.short limited
    have adds : Adds c (gs ++ [g]) (c₁.ensureIovSpace.pushIov ⟨.bytes content, content.length - rest⟩)
        (gs₁ ++ [g₁ ++ [⟨.bytes content, content.length - rest⟩]])
        [⟨.bytes content, content.length - rest⟩] := by
      refine ⟨room.same.trans same, ?_, fun begun => room.begun begun _⟩
      rw [payload_snoc (fun udp => room.packed.slot (room.same.udp.trans udp)), room.payload_eq]
    by_cases more : rest > 0
    · rw [if_pos more]
      have left : (content.drop (content.length - rest)).length = rest := by
        rw [List.length_drop]
        omega
      have positive : rest < content.length := lt (by omega)
      have small : (c₁.ensureIovSpace.pushIov ⟨.bytes content, content.length - rest⟩).udp = true →
          (content.drop (content.length - rest)).length + udpMaxPayloadSize < 2 ^ 31 := by
        intro udp
        have := datagrams (adds.same.udp.symm.trans udp)
        omega
      obtain ⟨c', gs', g', vs, ran, packed', adds', fragments⟩ :=
        @ih _ _ _ packed (content.drop (content.length - rest)) (by omega) small (by omega)
      rw [left] at ran
      exact ⟨c', gs', g', _, ran, packed', adds.trans adds', fragments.cons (by omega) (by omega)⟩
    · rw [if_neg more]
      obtain rfl : rest = 0 := by omega
      exact ⟨_, _, _, _, rfl, packed, adds, .single⟩

theorem Packed.addIovs {c : Outgoing} {gs : List (List Iovec)} {g : List Iovec}
    (h : Packed c gs g) {bufs : List (List UInt8)} (sizes : ∀ buf ∈ bufs, buf.length < 2 ^ 31)
    (datagrams : c.udp = true → ∀ buf ∈ bufs, buf.length + udpMaxPayloadSize < 2 ^ 31) :
    ∃ c' gs' g' vs, Outgoing.addIovs bufs c = some c' ∧ Packed c' gs' g' ∧
      Adds c (gs ++ [g]) c' (gs' ++ [g']) vs ∧ (∀ v ∈ vs, v.Plain) ∧
      vs.flatMap (Iovec.bytes []) = bufs.flatten ∧
      ((∀ buf ∈ bufs, buf ≠ []) → ∀ v ∈ vs, 0 < v.len) := by
  induction bufs generalizing c gs g with
  | nil =>
    refine ⟨c, gs, g, [], rfl, h, ⟨.refl c, (List.append_nil _).symm, id⟩, ?_, rfl, ?_⟩ <;> simp
  | cons buf bufs ih =>
    obtain ⟨c₁, gs₁, g₁, vs₁, added, packed, adds, fragments⟩ :=
      h.addIovLoop (sizes buf List.mem_cons_self) (fun udp => datagrams udp buf List.mem_cons_self)
        (Nat.lt_succ_self _)
    obtain ⟨c', gs', g', vs, rest, packed', adds', plain, content, positive⟩ :=
      ih packed (fun b mem => sizes b (List.mem_cons_of_mem _ mem)) fun udp b mem =>
        datagrams (adds.same.udp.symm.trans udp) b (List.mem_cons_of_mem _ mem)
    refine ⟨c', gs', g', vs₁ ++ vs, ?_, packed', adds.trans adds', ?_, ?_, fun nonempty => ?_⟩
    · rw [Outgoing.addIovs, Outgoing.addIov, added, Option.bind_some, rest]
    · exact List.forall_mem_append.2 ⟨fragments.plain, plain⟩
    · rw [List.flatMap_append, fragments.content, content, List.flatten_cons]
    · rw [List.forall_mem_cons] at nonempty
      exact List.forall_mem_append.2 ⟨fragments.positive nonempty.1, positive nonempty.2⟩

structure Outgoing.Ready (c : Outgoing) : Prop where
  iovPositive : 0 < c.iov.length
  msgPositive : 0 < c.msgsize
  inside : c.overrun = false

/-- A response: its messages keep to the limits, and without the space for the headers their entries
are those of the buffers. -/
structure Responded (c : Outgoing) (bufs : List (List UInt8)) (c' : Outgoing)
    (groups : List (List Iovec)) : Prop where
  formed : Formed c' groups
  same : SameSocket c c'
  begun : Begun groups
  plain : ∀ v ∈ payload c.udp groups, v.Plain
  content : (payload c.udp groups).flatMap (Iovec.bytes []) = bufs.flatten
  positive : (∀ buf ∈ bufs, buf ≠ []) → ∀ v ∈ payload c.udp groups, 0 < v.len

theorem Outgoing.Ready.respond {c : Outgoing} (h : c.Ready) {bufs : List (List UInt8)}
    (sizes : ∀ buf ∈ bufs, buf.length < 2 ^ 31)
    (datagrams : c.udp = true → ∀ buf ∈ bufs, buf.length + udpMaxPayloadSize < 2 ^ 31) :
    ∃ c' groups, c.respond bufs = some c' ∧ Responded c bufs c' groups := by
  have empty : Formed { c with msgcurr := 0, msglist := [], iovused := 0 } [] :=
    ⟨⟨trivial, List.nil_prefix, rfl, h.iovPositive, h.msgPositive, Nat.zero_le _, h.inside, rfl⟩,
      fun g mem => absurd mem List.not_mem_nil⟩
  obtain ⟨c₁, started, same, packed⟩ := empty.addMsghdr
  obtain ⟨c', gs, g, vs, added, packed', adds, plain, content, positive⟩ :=
    packed.addIovs sizes fun udp => datagrams (same.udp.symm.trans udp)
  have entries : payload c.udp (gs ++ [g]) = vs := by
    have := adds.payload_eq
    rw [same.udp, payload_freshGroup] at this
    exact this
  refine ⟨c', gs ++ [g], ?_, packed'.formed, ?_, adds.begun ?_, ?_, ?_, ?_⟩
  · rw [Outgoing.respond, started, Option.bind_some, added]
  · have := same.trans adds.same
    exact ⟨this.udp, this.requestId, this.hdrbuf, this.hdrsize⟩
  · simp [Begun]
  · rw [entries]
    exact plain
  · rw [entries, content]
  · rw [entries]
    exact positive

end LogMemcached
