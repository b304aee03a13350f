import LogMemcached.PrefixStats
import LogMemcached.Lib.CText
import LogMemcached.Lib.Fallible
import LogMemcached.Lib.Print

/-!
# The dump of the prefix statistics

`stats_prefix_dump` computes the size of its buffer from the number of the prefixes and the sum of
their lengths, which `stats_prefix_find` keeps up, with twenty digits for every count.  The position
in the buffer is an `int`.
-/

namespace LogMemcached

open CText Fallible

/-- `format`. -/
def dumpFormat : List UInt8 := "PREFIX %s get %llu hit %llu set %llu del %llu\r\n".toUTF8.toList

/-- The text that `format` gives for an entry. -/
def PrefixStats.line (pfs : PrefixStats) : List UInt8 :=
  "PREFIX ".toUTF8.toList ++ pfs.prefixText ++
    " get ".toUTF8.toList ++ decimal pfs.numGets.toNat ++
    " hit ".toUTF8.toList ++ decimal pfs.numHits.toNat ++
    " set ".toUTF8.toList ++ decimal pfs.numSets.toNat ++
    " del ".toUTF8.toList ++ decimal pfs.numDeletes.toNat ++ [13, 10]

def dumpEnd : List UInt8 := "END\r\n".toUTF8.toList

/-- How a dump can fail: its assertion, or a write outside the buffer. -/
inductive DumpAbort
  | totalWritten
  | outside
deriving DecidableEq, Repr

/-- The variables of the loop: the buffer, the `int` `pos` and `total_written`. -/
structure Dump where
  buf : List UInt8
  pos : ℤ
  totalWritten : ℕ
deriving DecidableEq, Repr

def Dump.writeLine (size : ℕ) (d : Dump) (pfs : PrefixStats) : Except DumpAbort Dump := do
  let limit := (BitVec.ofInt 64 (size - d.pos)).toNat
  let buf ← ofOption (snprintf d.buf d.pos limit pfs.line) .outside
  let written := (BitVec.ofInt 64 (printedLength pfs.line)).toNat
  let totalWritten := sizeAdd d.totalWritten written
  check (totalWritten < size) .totalWritten
  .ok ⟨buf, (BitVec.ofInt 32 (d.pos + written)).toInt, totalWritten⟩

/-- A call that records a command, or `stats_prefix_clear`. -/
inductive PrefixCall
  | record (op : PrefixOp)
  | clear
deriving DecidableEq, Repr

namespace PrefixTable

def dumpSize (t : PrefixTable) : ℕ :=
  (dumpFormat.length + t.totalPrefixSize +
    t.numPrefixes * (dumpFormat.length - 2 + 4 * (20 - 4)) + 6) % 2 ^ 64

/-- `stats_prefix_dump`: the buffer and `*length`. -/
def statsPrefixDump (t : PrefixTable) : Except DumpAbort (List UInt8 × ℤ) := do
  let d ← t.entries.foldlM (Dump.writeLine t.dumpSize) ⟨List.replicate t.dumpSize 0, 0, 0⟩
  let buf ← ofOption (splice d.buf d.pos (dumpEnd ++ [0])) .outside
  .ok (buf, (BitVec.ofInt 32 (d.pos + 5)).toInt)

def dumpText (t : PrefixTable) : List UInt8 := t.entries.flatMap PrefixStats.line ++ dumpEnd

def empty : PrefixTable := ⟨fun _ => [], 0, 0⟩

def after (hash : List UInt8 → UInt32) (delimiter : UInt8) (calls : List PrefixCall) : PrefixTable :=
  calls.foldl
    (fun t call =>
      match call with
      | .record op => t.record hash delimiter op
      | .clear => t.statsPrefixClear)
    empty

/-! ## The running totals -/

def texts (t : PrefixTable) : List (List UInt8) := t.entries.map PrefixStats.prefixText

structure Totals (t : PrefixTable) : Prop where
  num : t.numPrefixes = t.texts.length
  size : t.totalPrefixSize = t.texts.flatten.length

end PrefixTable

theorem flatMap_update_cons {α : Type} (φ : ℕ → List α) (h : ℕ) (x : α) {l : List ℕ} (nodup : l.Nodup)
    (mem : h ∈ l) : (l.flatMap (Function.update φ h (x :: φ h))).Perm (x :: l.flatMap φ) := by
  obtain ⟨l₁, l₂, rfl⟩ := List.append_of_mem mem
  rw [List.nodup_middle, List.nodup_cons, List.mem_append, not_or] at nodup
  have same : ∀ l : List ℕ, h ∉ l → l.flatMap (Function.update φ h (x :: φ h)) = l.flatMap φ := by
    intro l absent
    refine List.flatMap_congr fun i within => Function.update_of_ne ?_ _ _
    rintro rfl
    exact absent within
  rw [List.flatMap_append, List.flatMap_cons, List.flatMap_append, List.flatMap_cons,
    same _ nodup.1.1, same _ nodup.1.2, Function.update_self, List.cons_append]
  exact List.perm_middle

theorem map_modify_of_eq {α β : Type} {f : α → α} {g : α → β} (keeps : ∀ a, g (f a) = g a) (l : List α)
    (i : ℕ) : (l.modify i f).map g = l.map g := by
  apply List.ext_getElem?
  intro j
  rw [List.getElem?_map, List.getElem?_modify, List.getElem?_map]
  cases l[j]? with
  | none => rfl
  | some a =>
    by_cases same : i = j
    · simp [same, keeps]
    · simp [same]

theorem length_le_of_prefixLength {delimiter : UInt8} {key : List UInt8} {n : ℕ}
    (found : prefixLength delimiter key = some n) : n ≤ key.length := by
  induction key generalizing n with
  | nil => cases found
  | cons c key ih =>
    rw [prefixLength] at found
    split at found
    · cases found
    · split at found
      · obtain rfl := Option.some.inj found
        exact Nat.zero_le _
      · obtain ⟨m, rest, rfl⟩ := Option.map_eq_some_iff.1 found
        exact Nat.succ_le_succ (ih rest)

namespace PrefixTable

variable {hash : List UInt8 → UInt32} {delimiter : UInt8} {t : PrefixTable}

theorem hashval_lt (hash : List UInt8 → UInt32) (p : List UInt8) : hashval hash p ∈ List.range prefixHashSize :=
  List.mem_range.2 (Nat.mod_lt _ (by decide))

theorem texts_bump (t : PrefixTable) (op : PrefixOp) (h i : ℕ) :
    texts { t with
      prefixStats := Function.update t.prefixStats h ((t.prefixStats h).modify i op.bump) } =
      t.texts := by
  rw [texts, entries, List.map_flatMap, texts, entries, List.map_flatMap]
  refine List.flatMap_congr fun j _ => ?_
  dsimp only
  by_cases same : j = h
  · subst same
    rw [Function.update_self, map_modify_of_eq fun e => prefixText_bump e]
  · rw [Function.update_of_ne same]

theorem texts_insert (t : PrefixTable) (p : List UInt8) (hash : List UInt8 → UInt32) (num size : ℕ) :
    (texts ⟨Function.update t.prefixStats (hashval hash p)
      (newPrefix p :: t.prefixStats (hashval hash p)), num, size⟩).Perm (p :: t.texts) :=
  (flatMap_update_cons t.prefixStats (hashval hash p) (newPrefix p) List.nodup_range
    (hashval_lt hash p)).map PrefixStats.prefixText

theorem Totals.record (h : t.Totals) (op : PrefixOp) : (t.record hash delimiter op).Totals := by
  rw [PrefixTable.record, statsPrefixFind]
  cases found : prefixLength delimiter op.key with
  | none => exact h
  | some length =>
    dsimp only
    cases place : (t.prefixStats (hashval hash (op.key.take length))).findIdx?
        fun pfs => strncmpEq length pfs.prefixText op.key with
    | some i =>
      exact ⟨by rw [texts_bump]; exact h.num, by rw [texts_bump]; exact h.size⟩
    | none =>
      have grown := texts_insert t (op.key.take length) hash (t.numPrefixes + 1)
        (t.totalPrefixSize + length)
      have size : (op.key.take length).length = length := by
        rw [List.length_take, Nat.min_eq_left (length_le_of_prefixLength found)]
      refine ⟨?_, ?_⟩
      · rw [texts_bump, grown.length_eq, List.length_cons, ← h.num]
      · rw [texts_bump, grown.flatten.length_eq, List.flatten_cons, List.length_append, size, ← h.size]
        exact Nat.add_comm _ _

theorem Totals.after (calls : List PrefixCall) : (PrefixTable.after hash delimiter calls).Totals := by
  have start : Totals ⟨fun _ => [], 0, 0⟩ := by
    have none : texts ⟨fun _ => [], 0, 0⟩ = [] := by simp [texts, entries]
    exact ⟨by rw [none]; rfl, by rw [none]; rfl⟩
  rw [PrefixTable.after]
  induction calls using List.reverseRecOn with
  | nil => exact start
  | append_singleton calls call ih =>
    rw [List.foldl_append, List.foldl_cons, List.foldl_nil]
    cases call with
    | record op => exact ih.record op
    | clear => exact start

end PrefixTable

/-! ## The length of the text -/

theorem length_dumpFormat : dumpFormat.length = 47 := by decide +kernel

theorem length_dumpEnd : dumpEnd.length = 5 := by decide +kernel

theorem length_decimal_le_twenty (n : UInt64) : (decimal n.toNat).length ≤ 20 :=
  length_decimal_le (by decide) (Nat.lt_trans n.toNat_lt (by decide))

theorem PrefixStats.length_line (pfs : PrefixStats) :
    pfs.line.length = pfs.prefixText.length + 29 +
      ((decimal pfs.numGets.toNat).length + (decimal pfs.numHits.toNat).length +
        (decimal pfs.numSets.toNat).length + (decimal pfs.numDeletes.toNat).length) := by
  have words : "PREFIX ".toUTF8.toList.length = 7 ∧ " get ".toUTF8.toList.length = 5 ∧
      " hit ".toUTF8.toList.length = 5 ∧ " set ".toUTF8.toList.length = 5 ∧
      " del ".toUTF8.toList.length = 5 := by decide +kernel
  simp only [PrefixStats.line, List.length_append, words, List.length_cons, List.length_nil]
  omega

theorem PrefixStats.length_line_le (pfs : PrefixStats) :
    pfs.line.length ≤ pfs.prefixText.length + 109 := by
  have gets := length_decimal_le_twenty pfs.numGets
  have hits := length_decimal_le_twenty pfs.numHits
  have sets := length_decimal_le_twenty pfs.numSets
  have deletes := length_decimal_le_twenty pfs.numDeletes
  rw [pfs.length_line]
  omega

theorem length_lines_le (entries : List PrefixStats) :
    (entries.flatMap PrefixStats.line).length ≤
      (entries.map PrefixStats.prefixText).flatten.length + entries.length * 109 := by
  induction entries with
  | nil => exact le_rfl
  | cons pfs entries ih =>
    have first := pfs.length_line_le
    rw [List.flatMap_cons, List.length_append, List.map_cons, List.flatten_cons, List.length_append,
      List.length_cons]
    omega

namespace PrefixTable

variable {t : PrefixTable}

theorem dumpSize_eq (num : t.numPrefixes < 2 ^ 31) (size : t.totalPrefixSize < 2 ^ 31) :
    t.dumpSize = 53 + t.totalPrefixSize + t.numPrefixes * 109 := by
  rw [dumpSize, length_dumpFormat, Nat.mod_eq_of_lt (by omega)]
  omega

theorem Totals.length_dumpText_lt (h : t.Totals) (num : t.numPrefixes < 2 ^ 31)
    (size : t.totalPrefixSize < 2 ^ 31) : t.dumpText.length < t.dumpSize := by
  have lines := length_lines_le t.entries
  have count : t.texts.length = t.entries.length := List.length_map _
  rw [← texts, ← h.size, ← count, ← h.num] at lines
  rw [dumpText, List.length_append, length_dumpEnd, dumpSize_eq num size]
  omega

end PrefixTable

/-! ## Writing the lines -/

namespace Dump

structure Holds (d : Dump) (size : ℕ) (text : List UInt8) : Prop where
  block : d.buf.length = size
  pos : d.pos = text.length
  total : d.totalWritten = text.length
  text : d.buf.take text.length = text

theorem Holds.writeLine {d : Dump} {size : ℕ} {text : List UInt8} (h : d.Holds size text)
    {pfs : PrefixStats} (fits : (text ++ pfs.line).length < size)
    (small : (text ++ pfs.line).length < 2 ^ 31) (bounded : size < 2 ^ 64) :
    ∃ d', d.writeLine size pfs = .ok d' ∧ d'.Holds size (text ++ pfs.line) := by
  rw [List.length_append] at fits small
  have limit : (BitVec.ofInt 64 (size - d.pos)).toNat = size - text.length := by
    rw [h.pos, BitVec.toNat_ofInt]
    omega
  have written : (BitVec.ofInt 64 (printedLength pfs.line)).toNat = pfs.line.length := by
    rw [printedLength, if_pos (by omega), BitVec.toNat_ofInt]
    omega
  have pos : (BitVec.ofInt 32 (d.pos + pfs.line.length)).toInt = (text ++ pfs.line).length := by
    rw [h.pos, List.length_append, BitVec.toInt_ofInt, Int.bmod_eq_of_le (by omega) (by omega)]
    omega
  have total : sizeAdd d.totalWritten pfs.line.length = (text ++ pfs.line).length := by
    rw [sizeAdd, h.total, List.length_append, Nat.mod_eq_of_lt (by omega)]
  obtain ⟨buf, printed, length, content⟩ := @snprintf_whole d.buf pfs.line text.length
    (size - text.length) (by omega) (by rw [h.block]; omega)
  refine ⟨⟨buf, (text ++ pfs.line).length, (text ++ pfs.line).length⟩, ?_, length.trans h.block, rfl,
    rfl, ?_⟩
  · rw [Dump.writeLine]
    dsimp only
    rw [limit, h.pos, printed, ofOption_some, ok_bind, written, total, check,
      if_pos (by rw [List.length_append]; simpa using fits), ok_bind, ← h.pos, pos]
  · rw [List.length_append, content, h.text]

theorem Holds.writeLines {size : ℕ} (bounded : size < 2 ^ 64) {d : Dump} {text : List UInt8}
    (h : d.Holds size text) (entries : List PrefixStats)
    (fits : (text ++ entries.flatMap PrefixStats.line).length < size)
    (small : (text ++ entries.flatMap PrefixStats.line).length < 2 ^ 31) :
    ∃ d', entries.foldlM (Dump.writeLine size) d = .ok d' ∧
      d'.Holds size (text ++ entries.flatMap PrefixStats.line) := by
  induction entries generalizing d text with
  | nil => exact ⟨d, rfl, by simpa using h⟩
  | cons pfs entries ih =>
    rw [List.flatMap_cons, ← List.append_assoc] at fits small ⊢
    have shorter : (text ++ pfs.line).length ≤
        (text ++ pfs.line ++ entries.flatMap PrefixStats.line).length := by
      simp only [List.length_append]
      exact Nat.le_add_right _ _
    obtain ⟨d₁, first, h₁⟩ := h.writeLine (shorter.trans_lt fits) (shorter.trans_lt small) bounded
    obtain ⟨d', rest, h'⟩ := ih h₁ fits small
    exact ⟨d', by rw [List.foldlM_cons, first, ok_bind, rest], h'⟩

end Dump

namespace PrefixTable

variable {hash : List UInt8 → UInt32} {delimiter : UInt8} {t : PrefixTable}

theorem Totals.statsPrefixDump (h : t.Totals) (num : t.numPrefixes < 2 ^ 31)
    (size : t.totalPrefixSize < 2 ^ 31) (small : t.dumpText.length < 2 ^ 31) :
    ∃ buf, t.statsPrefixDump = .ok (buf, (t.dumpText.length : ℤ)) ∧
      buf.take (t.dumpText.length + 1) = t.dumpText ++ [0] := by
  have fits := h.length_dumpText_lt num size
  have bounded : t.dumpSize < 2 ^ 64 := by
    rw [dumpSize_eq num size]
    omega
  have start : Dump.Holds ⟨List.replicate t.dumpSize 0, 0, 0⟩ t.dumpSize [] :=
    ⟨List.length_replicate, rfl, rfl, rfl⟩
  have lines : ([] ++ t.entries.flatMap PrefixStats.line).length + 5 = t.dumpText.length := by
    rw [List.nil_append, dumpText, List.length_append, length_dumpEnd]
  obtain ⟨d, ran, holds⟩ := start.writeLines bounded t.entries (by omega) (by omega)
  rw [List.nil_append] at holds lines
  have length : (dumpEnd ++ [0]).length = 6 := by rw [List.length_append, length_dumpEnd]; rfl
  have inside : (t.entries.flatMap PrefixStats.line).length + (dumpEnd ++ [0]).length ≤ d.buf.length := by
    rw [holds.block, length]
    omega
  have pos : (BitVec.ofInt 32 (d.pos + 5)).toInt = t.dumpText.length := by
    rw [holds.pos, BitVec.toInt_ofInt, Int.bmod_eq_of_le (by omega) (by omega)]
    omega
  refine ⟨d.buf.take (t.entries.flatMap PrefixStats.line).length ++ (dumpEnd ++ [0]) ++
    d.buf.drop ((t.entries.flatMap PrefixStats.line).length + (dumpEnd ++ [0]).length), ?_, ?_⟩
  · rw [PrefixTable.statsPrefixDump, ran, ok_bind, pos, holds.pos, splice_inside inside, ofOption_some,
      ok_bind]
  · rw [holds.text, ← List.append_assoc, ← dumpText,
      List.take_left' (by rw [List.length_append, List.length_singleton])]

theorem lt_of_statsPrefixDump {buf : List UInt8} {length : ℤ}
    (ran : t.statsPrefixDump = .ok (buf, length)) : length < 2 ^ 31 := by
  obtain ⟨d, -, rest⟩ := bind_ran.1 ran
  obtain ⟨buf', -, returned⟩ := bind_ran.1 rest
  cases returned
  exact BitVec.toInt_lt

/-- After any calls that leave the totals in the range of an `int`, the text fits into the buffer;
it is written there as a whole exactly when its length is an `int` too. -/
theorem prefix_dump_fits (hash : List UInt8 → UInt32) (delimiter : UInt8) (calls : List PrefixCall)
    (num : (after hash delimiter calls).numPrefixes < 2 ^ 31)
    (size : (after hash delimiter calls).totalPrefixSize < 2 ^ 31) :
    (after hash delimiter calls).dumpText.length < (after hash delimiter calls).dumpSize ∧
      ((∃ buf, (after hash delimiter calls).statsPrefixDump =
            .ok (buf, ((after hash delimiter calls).dumpText.length : ℤ)) ∧
          buf.take ((after hash delimiter calls).dumpText.length + 1) =
            (after hash delimiter calls).dumpText ++ [0]) ↔
        (after hash delimiter calls).dumpText.length < 2 ^ 31) := by
  have totals := @Totals.after hash delimiter calls
  refine ⟨totals.length_dumpText_lt num size, fun ⟨buf, ran, _⟩ => ?_, totals.statsPrefixDump num size⟩
  have bound := lt_of_statsPrefixDump ran
  omega

theorem prefix_dump_fits_one :
    ∃ hash delimiter calls,
      (after hash delimiter calls).numPrefixes < 2 ^ 31 ∧
      (after hash delimiter calls).totalPrefixSize < 2 ^ 31 ∧
      ∃ buf, (after hash delimiter calls).statsPrefixDump =
          .ok (buf, ((after hash delimiter calls).dumpText.length : ℤ)) ∧
        buf.take ((after hash delimiter calls).dumpText.length + 1) =
          (after hash delimiter calls).dumpText ++ [0] :=
  ⟨fun _ => 0, 58, [.record (.set "abc:123".toUTF8.toList)], by decide +kernel, by decide +kernel,
    (prefix_dump_fits (fun _ => 0) 58 [.record (.set "abc:123".toUTF8.toList)] (by decide +kernel)
      (by decide +kernel)).2.2 (by decide +kernel)⟩

/-! ## A line that is too long for an `int` -/

/-- `snprintf` fails for a line of `2 ^ 31` bytes, and its `-1` is the largest `size_t`. -/
theorem statsPrefixDump_long {pfs : PrefixStats} {rest : List PrefixStats}
    (first : t.entries = pfs :: rest) (long : 2 ^ 31 ≤ pfs.line.length) :
    t.statsPrefixDump = .error .totalWritten := by
  have bounded : t.dumpSize < 2 ^ 64 := Nat.mod_lt _ (by decide)
  have limit : (BitVec.ofInt 64 ((t.dumpSize : ℤ) - 0)).toNat = t.dumpSize := by
    rw [BitVec.toNat_ofInt]
    omega
  have written : (BitVec.ofInt 64 (printedLength pfs.line)).toNat = 2 ^ 64 - 1 := by
    rw [printedLength, if_neg (by omega)]
    decide
  have inside : 0 + (printed t.dumpSize pfs.line).length ≤ (List.replicate t.dumpSize (0 : UInt8)).length := by
    rw [List.length_replicate, Nat.zero_add]
    exact length_printed_le _ _
  have total : sizeAdd 0 (2 ^ 64 - 1) = 2 ^ 64 - 1 := by decide
  have aborted : Dump.writeLine t.dumpSize ⟨List.replicate t.dumpSize 0, 0, 0⟩ pfs =
      .error .totalWritten := by
    rw [Dump.writeLine]
    dsimp only
    rw [limit, snprintf, show (0 : ℤ) = (0 : ℕ) from rfl, splice_inside inside, ofOption_some, ok_bind,
      written, total, check, if_neg (by rw [decide_eq_true_iff]; omega)]
    rfl
  rw [PrefixTable.statsPrefixDump, first, List.foldlM_cons, aborted]
  rfl

theorem after_record {op : PrefixOp} {n : ℕ} (found : prefixLength delimiter op.key = some n) :
    (after hash delimiter [.record op]).entries = [op.bump (newPrefix (op.key.take n))] ∧
      (after hash delimiter [.record op]).numPrefixes = 1 ∧
      (after hash delimiter [.record op]).totalPrefixSize = n := by
  have recorded : after hash delimiter [.record op] =
      ⟨Function.update (fun _ => []) (hashval hash (op.key.take n))
        [op.bump (newPrefix (op.key.take n))], 1, n⟩ := by
    rw [after, List.foldl_cons, List.foldl_nil]
    simp only [empty, PrefixTable.record, statsPrefixFind, found, List.findIdx?_nil,
      Function.update_self, Function.update_idem, List.modify_cons, Nat.zero_add, if_pos]
  rw [recorded]
  refine ⟨List.perm_singleton.1 ?_, rfl, rfl⟩
  have inserted := flatMap_update_cons (fun _ => []) (hashval hash (op.key.take n))
    (op.bump (newPrefix (op.key.take n))) List.nodup_range (hashval_lt hash (op.key.take n))
  rwa [show (List.range prefixHashSize).flatMap (fun _ => ([] : List PrefixStats)) = [] by simp]
    at inserted

end PrefixTable

theorem prefixLength_replicate (n : ℕ) :
    prefixLength 58 (List.replicate n 97 ++ [58]) = some n := by
  induction n with
  | zero => rfl
  | succ n ih =>
    rw [List.replicate_succ, List.cons_append, prefixLength, if_neg (by decide), if_neg (by decide), ih]
    rfl

/-- A record with a prefix that takes the whole range of the total. -/
theorem PrefixTable.long_prefix_aborts :
    ∃ hash delimiter calls,
      (after hash delimiter calls).numPrefixes < 2 ^ 31 ∧
      (after hash delimiter calls).totalPrefixSize < 2 ^ 31 ∧
      (after hash delimiter calls).statsPrefixDump = .error .totalWritten := by
  obtain ⟨n, max⟩ : ∃ n, n = 2 ^ 31 - 1 := ⟨_, rfl⟩
  have found : prefixLength 58 (PrefixOp.set (List.replicate n 97 ++ [58])).key = some n :=
    prefixLength_replicate n
  obtain ⟨entries, num, size⟩ := @after_record (fun _ => 0) _ _ _ found
  refine ⟨fun _ => 0, 58, [.record (.set (List.replicate n 97 ++ [58]))], ?_, ?_,
    statsPrefixDump_long entries ?_⟩
  · omega
  · omega
  · have text : (PrefixOp.bump (newPrefix ((PrefixOp.set (List.replicate n 97 ++ [58])).key.take n))
        (PrefixOp.set (List.replicate n 97 ++ [58]))).prefixText = List.replicate n 97 :=
      List.take_left' List.length_replicate
    rw [PrefixStats.length_line, text, List.length_replicate]
    omega

end LogMemcached
