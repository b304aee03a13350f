import LogMemcached.Lib.ByteMem
import LogMemcached.Lib.Fallible
import LogMemcached.Lib.Hex
import LogMemcached.Lib.Print

/-!
# The replication handshake

Before a replica reads the log by RDMA, the two sides exchange the address of their queue pairs, and
the primary sends the address and the key of its buffer.  The messages are texts of hexadecimal
numbers in buffers of fixed sizes, printed with `sprintf` and read with `sscanf`.
-/

namespace LogMemcached

open ByteMem CText Fallible

/-! ## Byte order -/

/-- `htonl` on a little-endian machine. -/
def htonl (v : BitVec 32) : BitVec 32 :=
  v <<< 24 ||| (v &&& 0xff00) <<< 8 ||| (v >>> 8 &&& 0xff00) ||| v >>> 24

/-- `ntohl` on a little-endian machine. -/
def ntohl (v : BitVec 32) : BitVec 32 := htonl v

/-- `mc_swap64`, with `ENDIAN_LITTLE`. -/
def mcSwap64 (v : BitVec 64) : BitVec 64 :=
  ((List.range 8).foldl (fun (rv, v) _ => (rv <<< 8 ||| (v &&& 0xff), v >>> 8)) (0, v)).1

def htonll (v : BitVec 64) : BitVec 64 := mcSwap64 v

def ntohll (v : BitVec 64) : BitVec 64 := mcSwap64 v

/-! ## The messages -/

/-- `union ibv_gid`. -/
@[ext]
structure Gid where
  raw : List UInt8
  length_raw : raw.length = 16
deriving DecidableEq, Repr

namespace Gid

/-- `memcpy(&v32, gid->raw + i * 4, sizeof(v32))`. -/
def word (gid : Gid) (i : ℕ) : BitVec 32 := BitVec.ofNat 32 (u32 (fun a => gid.raw.getD a 0) (i * 4))

/-- `memcpy(&gid->raw[i * 4], &v32n, sizeof(v32n))`. -/
def store (gid : Gid) (i : Fin 4) (v32n : BitVec 32) : Gid where
  raw := gid.raw.take (i * 4) ++ le32 v32n.toNat ++ gid.raw.drop (i * 4 + 4)
  length_raw := by
    have := gid.length_raw
    simp only [List.length_append, List.length_take, List.length_drop, length_le32]
    omega

end Gid

def cString (buf : List UInt8) : List UInt8 := buf.takeWhile (· != 0)

/-- `sprintf` at a position of a buffer; `none` when the text and its terminator do not fit. -/
def sprintf (buf : List UInt8) (pos : ℕ) (text : List UInt8) : Option (List UInt8) :=
  splice buf pos (text ++ [0])

/-- `gid_to_wire_gid`. -/
def gidToWireGid (gid : Gid) (wgid : List UInt8) : Option (List UInt8) :=
  (List.finRange 4).foldlM (fun wgid i => sprintf wgid (i * 8) (hex 8 (htonl (gid.word i)).toNat)) wgid

/-- `wire_gid_to_gid`; `none` when a word is no number. -/
def wireGidToGid (wgid : List UInt8) (gid : Gid) : Option Gid :=
  (List.finRange 4).foldlM
    (fun gid (i : Fin 4) => do
      let tmp := (wgid.drop (i * 8)).take 8 ++ [0]
      let (v32, _) ← scanHex 32 (cString tmp)
      some (gid.store i (ntohl v32)))
    gid

/-- `struct backup_ibv_dest`. -/
structure IbvDest where
  lid : BitVec 32
  qpn : BitVec 32
  psn : BitVec 32
  remoteAddress : BitVec 64
  remoteKey : BitVec 32
  gid : Gid
deriving DecidableEq, Repr

/-- `sizeof msg`. -/
def msgSize : ℕ := "0000:000000:000000:00000000000000000000000000000000".toUTF8.toList.length + 1

/-- `sizeof msg2`. -/
def msg2Size : ℕ := 128

/-- `sizeof gid`. -/
def gidSize : ℕ := 33

namespace IbvDest

/-- The address of a queue pair, printed into `msg` through the buffer `gid`. -/
def printAddress (d : IbvDest) (msg gid : List UInt8) : Option (List UInt8) := do
  let gid ← gidToWireGid d.gid gid
  sprintf msg 0
    (hex 4 d.lid.toNat ++ ([58] ++ (hex 6 d.qpn.toNat ++ ([58] ++ (hex 6 d.psn.toNat ++
      ([58] ++ cString gid))))))

/-- The address and the key of the buffer, printed into `msg2`. -/
def printRegion (d : IbvDest) (msg2 : List UInt8) : Option (List UInt8) :=
  sprintf msg2 0
    ("RDMA addr ".toUTF8.toList ++ (hex 0 (htonll d.remoteAddress).toNat ++
      (" rkey ".toUTF8.toList ++ hex 0 (htonl d.remoteKey).toNat)))

/-- `sscanf(msg, "%x:%x:%x:%s", ...)` into the record and the buffer `gid`, and `wire_gid_to_gid`;
`none` when a variable is left unset. -/
def readAddress (d : IbvDest) (msg gid : List UInt8) : Option IbvDest := do
  let (lid, text) ← scanHex 32 (cString msg)
  let text ← scanText [58] text
  let (qpn, text) ← scanHex 32 text
  let text ← scanText [58] text
  let (psn, text) ← scanHex 32 text
  let text ← scanText [58] text
  let (word, _) ← scanWord text
  let wgid ← splice gid 0 (word ++ [0])
  let gid ← wireGidToGid wgid d.gid
  some { d with lid, qpn, psn, gid }

/-- `sscanf(msg2, "RDMA addr %lx rkey %x", ...)` and the change of the byte order. -/
def readRegion (d : IbvDest) (msg2 : List UInt8) : Option IbvDest := do
  let text ← scanText "RDMA addr ".toUTF8.toList (cString msg2)
  let (remoteAddress, text) ← scanHex 64 text
  let text ← scanText " rkey ".toUTF8.toList text
  let (remoteKey, _) ← scanHex 32 text
  some { d with remoteAddress := ntohll remoteAddress, remoteKey := ntohl remoteKey }

/-- The messages of `backup_server_connection_handler`, from its own address and buffer `d`. -/
def serverMessages (d : IbvDest) (msg gid msg2 : List UInt8) : Option (List UInt8 × List UInt8) := do
  let msg ← d.printAddress msg gid
  let msg2 ← d.printRegion msg2
  some (msg, msg2)

/-- The `rem_dest` of `backup_client_thread`, which `malloc` left as `d`. -/
def clientDecode (d : IbvDest) (gid : List UInt8) (messages : List UInt8 × List UInt8) : Option IbvDest := do
  let d ← d.readAddress messages.1 gid
  d.readRegion messages.2

end IbvDest

/-! ## The byte order twice -/

/-- The bit that comes to the place `i` when `n` bytes are reversed. -/
def swapped (n i : ℕ) : ℕ := 8 * (n - 1 - i / 8) + i % 8

theorem swapped_swapped {n i : ℕ} (small : i < 8 * n) : swapped n (swapped n i) = i := by
  unfold swapped
  omega

theorem swapped_lt {n i : ℕ} (small : i < 8 * n) : swapped n i < 8 * n := by
  unfold swapped
  omega

theorem getLsbD_htonl (v : BitVec 32) {i : ℕ} (small : i < 32) :
    (htonl v).getLsbD i = v.getLsbD (swapped 4 i) := by
  unfold htonl
  interval_cases i <;> simp [swapped]

theorem ntohl_htonl (v : BitVec 32) : ntohl (htonl v) = v := by
  apply BitVec.eq_of_getLsbD_eq
  intro i small
  rw [ntohl, getLsbD_htonl _ small, getLsbD_htonl _ (swapped_lt (n := 4) small),
    swapped_swapped (n := 4) small]

theorem getLsbD_ff (i : ℕ) : (0xff : BitVec 64).getLsbD i = decide (i < 8) := by
  rw [show (0xff : BitVec 64) = BitVec.ofNat 64 (2 ^ 8 - 1) from rfl, BitVec.getLsbD_ofNat,
    Nat.testBit_two_pow_sub_one]
  by_cases low : i < 8
  · simp [low, show i < 64 by omega]
  · simp [low]

theorem mcSwap64_loop (v : BitVec 64) (k : ℕ) :
    ∃ rv, (List.range k).foldl (fun (rv, v) _ => (rv <<< 8 ||| (v &&& 0xff), v >>> 8))
        ((0 : BitVec 64), v) = (rv, v >>> (8 * k)) ∧
      ∀ i < 64, rv.getLsbD i = (decide (i < 8 * k) && v.getLsbD (swapped k i)) := by
  induction k with
  | zero => exact ⟨0, rfl, fun i _ => by simp⟩
  | succ k ih =>
    obtain ⟨rv, ran, bits⟩ := ih
    refine ⟨rv <<< 8 ||| (v >>> (8 * k) &&& 0xff), ?_, fun i small => ?_⟩
    · rw [List.range_succ, List.foldl_append, ran, List.foldl_cons, List.foldl_nil]
      dsimp only
      rw [← BitVec.shiftRight_add, Nat.mul_succ]
    · rw [BitVec.getLsbD_or, BitVec.getLsbD_and, BitVec.getLsbD_shiftLeft, BitVec.getLsbD_ushiftRight,
        getLsbD_ff]
      by_cases low : i < 8
      · have place : swapped (k + 1) i = 8 * k + i := by
          unfold swapped
          omega
        simp [low, place, show i < 8 * (k + 1) by omega]
      · have place : swapped (k + 1) i = swapped k (i - 8) := by
          unfold swapped
          omega
        have within : i - 8 < 8 * k ↔ i < 8 * (k + 1) := by omega
        rw [bits (i - 8) (by omega)]
        simp [low, small, place, within]

theorem getLsbD_mcSwap64 (v : BitVec 64) {i : ℕ} (small : i < 64) :
    (mcSwap64 v).getLsbD i = v.getLsbD (swapped 8 i) := by
  obtain ⟨rv, ran, bits⟩ := mcSwap64_loop v 8
  rw [mcSwap64, ran, bits i small, decide_eq_true (by omega), Bool.true_and]

theorem ntohll_htonll (v : BitVec 64) : ntohll (htonll v) = v := by
  apply BitVec.eq_of_getLsbD_eq
  intro i small
  rw [ntohll, htonll, getLsbD_mcSwap64 _ small, getLsbD_mcSwap64 _ (swapped_lt (n := 8) small),
    swapped_swapped (n := 8) small]

/-! ## The text of a gid -/

theorem cString_append {text : List UInt8} (plain : ∀ b ∈ text, b ≠ 0) (rest : List UInt8) :
    cString (text ++ 0 :: rest) = text := by
  rw [cString, List.takeWhile_append_of_pos (by simpa using plain), List.takeWhile_cons, if_neg (by decide),
    List.append_nil]

theorem sprintf_spec {buf text : List UInt8} {pos : ℕ} (inside : pos + text.length < buf.length) :
    ∃ buf', sprintf buf pos text = some buf' ∧ buf'.length = buf.length ∧
      buf'.take (pos + text.length) = buf.take pos ++ text ∧
      ∃ rest, buf'.drop (pos + text.length) = 0 :: rest := by
  have inside' : pos + (text ++ [0]).length ≤ buf.length := by
    rw [List.length_append, List.length_singleton]
    omega
  have length : (buf.take pos ++ text).length = pos + text.length := by
    rw [List.length_append, List.length_take]
    omega
  refine ⟨_, splice_inside inside', length_spliced inside', ?_, ?_⟩
  · rw [← length, List.append_assoc, List.append_assoc, ← List.append_assoc, List.take_left]
  · refine ⟨buf.drop (pos + (text ++ [0]).length), ?_⟩
    rw [← length, List.append_assoc, List.append_assoc, ← List.append_assoc, List.drop_left]
    rfl

/-- The texts of the first `n` words. -/
def Gid.wireText (gid : Gid) : ℕ → List UInt8
  | 0 => []
  | n + 1 => gid.wireText n ++ hex 8 (htonl (gid.word n)).toNat

namespace Gid

variable (gid : Gid)

theorem length_hex_word (i : ℕ) : (hex 8 (htonl (gid.word i)).toNat).length = 8 :=
  length_hex_eq (by decide) (BitVec.isLt _)

theorem length_wireText (n : ℕ) : (gid.wireText n).length = n * 8 := by
  induction n with
  | zero => rfl
  | succ n ih => rw [wireText, List.length_append, ih, length_hex_word, Nat.succ_mul]

theorem plain_of_mem_wireText {n : ℕ} {b : UInt8} (mem : b ∈ gid.wireText n) :
    isSpace b = false ∧ b ≠ 0 := by
  induction n with
  | zero => cases mem
  | succ n ih =>
    rcases List.mem_append.1 mem with mem | mem
    · exact ih mem
    · exact plain_of_mem_hex mem

theorem wireText_split {i n : ℕ} (lt : i < n) :
    ∃ rest, gid.wireText n = gid.wireText i ++ (hex 8 (htonl (gid.word i)).toNat ++ rest) := by
  induction n with
  | zero => cases lt
  | succ n ih =>
    rcases Nat.lt_succ_iff_lt_or_eq.1 lt with lt | rfl
    · obtain ⟨rest, split⟩ := ih lt
      exact ⟨rest ++ hex 8 (htonl (gid.word n)).toNat, by
        rw [wireText, split, List.append_assoc, List.append_assoc]⟩
    · exact ⟨[], by rw [wireText, List.append_nil]⟩

theorem gidToWireGid_spec {wgid : List UInt8} (size : wgid.length = gidSize) :
    ∃ wgid', gidToWireGid gid wgid = some wgid' ∧ cString wgid' = gid.wireText 4 := by
  obtain ⟨wgid', ran, -, text, rest⟩ := exists_foldlM_finRange
    (f := fun wgid (i : Fin 4) => sprintf wgid (i * 8) (hex 8 (htonl (gid.word i)).toNat))
    (fun n wgid => wgid.length = 33 ∧ wgid.take (n * 8) = gid.wireText n ∧
      (0 < n → ∃ rest, wgid.drop (n * 8) = 0 :: rest))
    (s := wgid) ⟨size, rfl, nofun⟩ fun i wgid ⟨size, text, _⟩ => by
      obtain ⟨wgid', ran, size', text', rest⟩ := @sprintf_spec wgid
        (hex 8 (htonl (gid.word i)).toNat) (i * 8) (by rw [length_hex_word, size]; omega)
      rw [length_hex_word, ← Nat.succ_mul] at text' rest
      exact ⟨wgid', ran, size'.trans size, by rw [text', text, wireText], fun _ => rest⟩
  obtain ⟨rest, terminated⟩ := rest (by decide)
  refine ⟨wgid', ran, ?_⟩
  rw [← List.take_append_drop (4 * 8) wgid', text, terminated]
  exact cString_append (fun b mem => (gid.plain_of_mem_wireText mem).2) rest

theorem toNat_word (i : ℕ) : (gid.word i).toNat = u32 (fun a => gid.raw.getD a 0) (i * 4) := by
  rw [word, BitVec.toNat_ofNat, Nat.mod_eq_of_lt (u32_lt _ _)]

theorem le32_word {i : ℕ} (small : i < 4) :
    le32 (gid.word i).toNat = (gid.raw.drop (i * 4)).take 4 := by
  have inside : i * 4 + 4 ≤ gid.raw.length := by
    rw [gid.length_raw]
    omega
  rw [toNat_word, le32_u32, slice_getD inside]

theorem take_store {other : Gid} {i : Fin 4} (same : other.raw.take (i * 4) = gid.raw.take (i * 4)) :
    (other.store i (gid.word i)).raw.take ((i + 1) * 4) = gid.raw.take ((i + 1) * 4) := by
  have length : (other.raw.take (i * 4) ++ le32 (gid.word i).toNat).length = (i + 1) * 4 := by
    have := other.length_raw
    rw [List.length_append, List.length_take, length_le32]
    omega
  have front : (other.store i (gid.word i)).raw.take ((i + 1) * 4) =
      other.raw.take (i * 4) ++ le32 (gid.word i).toNat := List.take_left' length
  rw [front, same, gid.le32_word i.isLt, Nat.succ_mul, List.take_add]

theorem wireGidToGid_spec (other : Gid) (rest : List UInt8) :
    wireGidToGid (gid.wireText 4 ++ rest) other = some gid := by
  have round : ∀ (i : Fin 4),
      scanHex 32 (cString (((gid.wireText 4 ++ rest).drop (i * 8)).take 8 ++ [0])) =
        some (htonl (gid.word i), []) := by
    intro i
    obtain ⟨tail, split⟩ := gid.wireText_split i.isLt
    have cut : ((gid.wireText 4 ++ rest).drop (i * 8)).take 8 = hex 8 (htonl (gid.word i)).toNat := by
      rw [split, List.append_assoc, List.append_assoc, List.drop_left' (gid.length_wireText i),
        List.take_left' (gid.length_hex_word i)]
    have scan := @scanHex_hex 32 8 (htonl (gid.word i)).toNat
      (Nat.lt_trans (BitVec.isLt _) (by decide)) [] (by simp)
    rw [cut, cString_append (fun b mem => (plain_of_mem_hex mem).2), ← List.append_nil (hex _ _), scan]
    simp
  obtain ⟨gid', ran, same⟩ := exists_foldlM_finRange
    (f := fun other (i : Fin 4) => do
      let tmp := ((gid.wireText 4 ++ rest).drop (i * 8)).take 8 ++ [0]
      let (v32, _) ← scanHex 32 (cString tmp)
      some (other.store i (ntohl v32)))
    (fun n other => other.raw.take (n * 4) = gid.raw.take (n * 4))
    (s := other) (by simp) fun i other same => by
      refine ⟨other.store i (gid.word i), ?_, gid.take_store same⟩
      simp only [round i, Option.bind_eq_bind, Option.bind_some, ntohl_htonl]
  have whole : gid'.raw = gid.raw := by
    rw [List.take_of_length_le gid'.length_raw.le, List.take_of_length_le gid.length_raw.le] at same
    exact same
  rw [wireGidToGid, ran, Gid.ext whole]

end Gid

/-! ## The round trip -/

namespace IbvDest

variable (d : IbvDest)

theorem cString_sprintf {buf text : List UInt8} (plain : ∀ b ∈ text, b ≠ 0)
    (inside : text.length < buf.length) :
    ∃ buf', sprintf buf 0 text = some buf' ∧ buf'.length = buf.length ∧ cString buf' = text := by
  obtain ⟨buf', ran, length, front, rest, terminated⟩ := @sprintf_spec buf text 0 (by rwa [Nat.zero_add])
  rw [Nat.zero_add] at front terminated
  refine ⟨buf', ran, length, ?_⟩
  rw [← List.take_append_drop text.length buf', front, terminated, List.take_zero, List.nil_append,
    cString_append plain]

def addressText : List UInt8 :=
  hex 4 d.lid.toNat ++ ([58] ++ (hex 6 d.qpn.toNat ++ ([58] ++ (hex 6 d.psn.toNat ++
    ([58] ++ d.gid.wireText 4)))))

def regionText : List UInt8 :=
  "RDMA addr ".toUTF8.toList ++ (hex 0 (htonll d.remoteAddress).toNat ++
    (" rkey ".toUTF8.toList ++ hex 0 (htonl d.remoteKey).toNat))

theorem printAddress_spec (lid : d.lid.toNat < 2 ^ 16) (qpn : d.qpn.toNat < 2 ^ 24)
    (psn : d.psn.toNat < 2 ^ 24) {msg gid : List UInt8} (size : msg.length = msgSize)
    (gidSize' : gid.length = gidSize) :
    ∃ sent, d.printAddress msg gid = some sent ∧ sent.length = msgSize ∧
      cString sent = d.addressText := by
  obtain ⟨wgid, ran, text⟩ := d.gid.gidToWireGid_spec gidSize'
  have plain : ∀ b ∈ d.addressText, b ≠ 0 := by
    have colon : (58 : UInt8) ≠ 0 := by decide
    have digits : ∀ {width n b}, b ∈ hex width n → b ≠ 0 := fun mem => (plain_of_mem_hex mem).2
    have wire : ∀ {b}, b ∈ d.gid.wireText 4 → b ≠ 0 := fun mem => (d.gid.plain_of_mem_wireText mem).2
    intro b mem
    simp only [addressText, List.mem_append, List.mem_singleton] at mem
    rcases mem with mem | rfl | mem | rfl | mem | rfl | mem
    · exact digits mem
    · exact colon
    · exact digits mem
    · exact colon
    · exact digits mem
    · exact colon
    · exact wire mem
  have length : d.addressText.length = 51 := by
    simp only [addressText, List.length_append, List.length_singleton, Gid.length_wireText,
      length_hex_eq (show 0 < 4 by decide) lid, length_hex_eq (show 0 < 6 by decide) qpn,
      length_hex_eq (show 0 < 6 by decide) psn]
  obtain ⟨sent, printed, size', content⟩ := cString_sprintf plain
    (show d.addressText.length < msg.length by rw [length, size]; decide +kernel)
  refine ⟨sent, ?_, size'.trans size, content⟩
  rw [printAddress, ran, Option.bind_eq_bind, Option.bind_some, text]
  exact printed

theorem printRegion_spec {msg2 : List UInt8} (size : msg2.length = msg2Size) :
    ∃ sent, d.printRegion msg2 = some sent ∧ sent.length = msg2Size ∧ cString sent = d.regionText := by
  have words : "RDMA addr ".toUTF8.toList.length = 10 ∧ " rkey ".toUTF8.toList.length = 6 ∧
      ∀ b ∈ "RDMA addr ".toUTF8.toList ++ " rkey ".toUTF8.toList, b ≠ 0 := by decide +kernel
  obtain ⟨first, second, noNul⟩ := words
  have plain : ∀ b ∈ d.regionText, b ≠ 0 := by
    intro b mem
    simp only [regionText, List.mem_append] at mem
    rcases mem with mem | mem | mem | mem
    · exact noNul b (List.mem_append_left _ mem)
    · exact (plain_of_mem_hex mem).2
    · exact noNul b (List.mem_append_right _ mem)
    · exact (plain_of_mem_hex mem).2
  have address : (hex 0 (htonll d.remoteAddress).toNat).length ≤ 16 :=
    length_hex_le (by decide) (BitVec.isLt _) (by decide)
  have key : (hex 0 (htonl d.remoteKey).toNat).length ≤ 8 :=
    length_hex_le (by decide) (BitVec.isLt _) (by decide)
  have length : d.regionText.length ≤ 40 := by
    rw [regionText, List.length_append, List.length_append, List.length_append, first, second]
    omega
  obtain ⟨sent, printed, size', content⟩ := cString_sprintf plain
    (show d.regionText.length < msg2.length by rw [size]; exact length.trans_lt (by decide))
  exact ⟨sent, printed, size'.trans size, content⟩

theorem scanHex_toNat {w width : ℕ} (v : BitVec w) (small : w ≤ 64) {rest : List UInt8}
    (stop : ∀ b ∈ rest.head?, hexValue b = none ∧ b ≠ 120 ∧ b ≠ 88) :
    scanHex w (hex width v.toNat ++ rest) = some (v, rest) := by
  have fits : v.toNat < 2 ^ 64 := v.isLt.trans_le (Nat.pow_le_pow_right (by decide) small)
  rw [scanHex_hex fits stop, BitVec.ofNat_toNat, BitVec.setWidth_eq]

theorem scanText_colon (rest : List UInt8) : scanText [58] ([58] ++ rest) = some rest :=
  scanText_self (List.isChain_singleton _) fun a last b _ => by
    obtain rfl := Option.some.inj last
    exact .inl (by decide)

theorem scanText_hex {text : List UInt8} {width n : ℕ} {rest : List UInt8}
    (single : text.IsChain fun a b => isSpace a = false ∨ isSpace b = false) :
    scanText text (text ++ (hex width n ++ rest)) = some (hex width n ++ rest) := by
  refine scanText_self single fun a _ b head => .inr ?_
  obtain ⟨ds, digits, nonempty, -⟩ := hex_eq_map width n
  have nonempty : hex width n ≠ [] := by simpa [digits] using nonempty
  rw [List.head?_append_of_ne_nil _ nonempty] at head
  exact (plain_of_mem_hex (List.mem_of_mem_head? head)).1

theorem readAddress_spec (other : IbvDest) {msg gid : List UInt8} (text : cString msg = d.addressText)
    (size : gid.length = gidSize) :
    other.readAddress msg gid =
      some { other with lid := d.lid, qpn := d.qpn, psn := d.psn, gid := d.gid } := by
  have colon : ∀ rest : List UInt8, ∀ b ∈ ([58] ++ rest).head?, hexValue b = none ∧ b ≠ 120 ∧ b ≠ 88 := by
    intro rest b head
    obtain rfl := Option.some.inj head
    decide
  have word : scanWord (d.gid.wireText 4) = some (d.gid.wireText 4, []) := by
    refine scanWord_self ?_ fun b mem => (d.gid.plain_of_mem_wireText mem).1
    rw [← List.length_pos_iff, Gid.length_wireText]
    decide
  have stored : splice gid 0 (d.gid.wireText 4 ++ [0]) = some (d.gid.wireText 4 ++ [0]) := by
    have length : (d.gid.wireText 4 ++ [0]).length = gid.length := by
      rw [List.length_append, Gid.length_wireText, size]
      rfl
    have inside := @splice_inside gid (d.gid.wireText 4 ++ [0]) 0 (by omega)
    rw [List.take_zero, List.nil_append, Nat.zero_add, length, List.drop_length, List.append_nil] at inside
    exact inside
  rw [readAddress, text, addressText]
  simp only [scanHex_toNat _ (by decide : 32 ≤ 64) (colon _), scanText_colon, word, stored,
    Gid.wireGidToGid_spec, Option.bind_eq_bind, Option.bind_some]

theorem readRegion_spec (other : IbvDest) {msg2 : List UInt8} (text : cString msg2 = d.regionText) :
    other.readRegion msg2 =
      some { other with remoteAddress := d.remoteAddress, remoteKey := d.remoteKey } := by
  have first := @scanText_hex "RDMA addr ".toUTF8.toList 0 (htonll d.remoteAddress).toNat
    (" rkey ".toUTF8.toList ++ hex 0 (htonl d.remoteKey).toNat) (by decide +kernel)
  have second := @scanText_hex " rkey ".toUTF8.toList 0 (htonl d.remoteKey).toNat [] (by decide +kernel)
  have space : ∀ b ∈ (" rkey ".toUTF8.toList ++ hex 0 (htonl d.remoteKey).toNat).head?,
      hexValue b = none ∧ b ≠ 120 ∧ b ≠ 88 := by
    have word : " rkey ".toUTF8.toList = 32 :: "rkey ".toUTF8.toList := by decide +kernel
    rw [word]
    intro b head
    obtain rfl := Option.some.inj head
    decide
  have address := @scanHex_toNat 64 0 (htonll d.remoteAddress) (by decide) _ space
  have key := @scanHex_toNat 32 0 (htonl d.remoteKey) (by decide) [] (by simp)
  rw [List.append_nil] at second key
  rw [readRegion, text, regionText]
  simp only [first, second, address, key, Option.bind_eq_bind, Option.bind_some, ntohll_htonll,
    ntohl_htonl]

/-- What the replica decodes from the messages of the primary is the address and the buffer of the
primary, and the messages fit into their buffers, whatever the buffers and the record held. -/
theorem handshake_round_trip (d other : IbvDest) (lid : d.lid.toNat < 2 ^ 16)
    (qpn : d.qpn.toNat < 2 ^ 24) (psn : d.psn.toNat < 2 ^ 24) (msg gid msg2 gid' : List UInt8)
    (msgLength : msg.length = msgSize) (gidLength : gid.length = gidSize)
    (msg2Length : msg2.length = msg2Size) (gidLength' : gid'.length = gidSize) :
    ∃ sent sent2, d.serverMessages msg gid msg2 = some (sent, sent2) ∧ sent.length = msgSize ∧
      sent2.length = msg2Size ∧ other.clientDecode gid' (sent, sent2) = some d := by
  obtain ⟨sent, printed, size, text⟩ := d.printAddress_spec lid qpn psn msgLength gidLength
  obtain ⟨sent2, printed2, size2, text2⟩ := d.printRegion_spec msg2Length
  refine ⟨sent, sent2, ?_, size, size2, ?_⟩
  · rw [serverMessages, printed, printed2]
    rfl
  · rw [clientDecode, d.readAddress_spec other text gidLength', Option.bind_eq_bind, Option.bind_some,
      d.readRegion_spec _ text2]

theorem handshake_round_trip_max :
    ∃ d other : IbvDest, ∃ msg gid msg2 gid' sent sent2 : List UInt8,
      d.lid.toNat = 2 ^ 16 - 1 ∧ d.qpn.toNat = 2 ^ 24 - 1 ∧ d.psn.toNat = 0 ∧
      d.serverMessages msg gid msg2 = some (sent, sent2) ∧ sent.length = msgSize ∧
      sent2.length = msg2Size ∧ other.clientDecode gid' (sent, sent2) = some d := by
  obtain ⟨sent, sent2, round⟩ := handshake_round_trip
    ⟨0xffff, 0xffffff, 0, 0x7f00dead00000001, 1, ⟨List.replicate 16 254, rfl⟩⟩
    ⟨0, 0, 0, 0, 0, ⟨List.replicate 16 0, rfl⟩⟩ (by decide) (by decide) (by decide)
    (List.replicate msgSize 7) (List.replicate gidSize 7) (List.replicate msg2Size 7)
    (List.replicate gidSize 7) List.length_replicate List.length_replicate List.length_replicate
    List.length_replicate
  exact ⟨_, _, _, _, _, _, sent, sent2, by decide, by decide, by decide, round⟩

end IbvDest

end LogMemcached
