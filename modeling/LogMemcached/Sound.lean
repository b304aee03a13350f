import LogMemcached.View

/-!
# Sound views

What holds of the records and the table between the steps of the server: every record is a
tombstone or an item that was allocated, completed or spoilt, no two records share an offset, and
the table leads to completed records under their own keys.
-/

namespace LogMemcached

open CText

def dirtyFlags : UInt8 := itemCas ||| itemDirty

def tombFlags : UInt8 := itemDeleted ||| itemStored

/-- An item as `do_item_alloc` lays it out: a key of legal length, client flags without the
`ITEM_DELETED` bit, and room for a line end. -/
structure Rec.Proper (r : Rec) : Prop where
  short : r.key.length ≤ 250
  flags : ∃ f < 2 ^ 32, deletedBit f = false ∧ r.suffix = suffixText f r.data.length
  two : 2 ≤ r.data.length

def Rec.Known (r : Rec) : Prop :=
  r.flags = tombFlags ∨
    r.Proper ∧ (r.flags = dirtyFlags ∨ r.flags = storedFlags ∨ r.flags = corruptedFlags)

structure View.Sound (v : View) : Prop where
  inj : ∀ q ∈ v.recs, ∀ r ∈ v.recs, q.off = r.off → q = r
  known : ∀ r ∈ v.recs, r.Known
  table : ∀ key o, v.table key = some o →
    ∃ r ∈ v.recs, r.off = o ∧ r.key = key ∧ r.flags = storedFlags

theorem strtoul_suffixText {f : ℕ} {n : ℤ} (small : f < 2 ^ 32) :
    strtoul (suffixText f n) % 2 ^ 32 = f := by
  rw [suffixText, strtoul_space_decimal (by omega) (by simp [isDigit]), Nat.mod_eq_of_lt small]

theorem strtoul_drop_suffixText {f : ℕ} {n : ℤ} (small : f < 2 ^ 32) :
    strtoul ((suffixText f n).drop 1) % 2 ^ 32 = f := by
  have skip (bs : List UInt8) : strtoul (32 :: bs) = strtoul bs := by
    simp [strtoul, scanNumber, isSpace]
  rw [suffixText, List.drop_succ_cons, List.drop_zero, ← skip]
  exact strtoul_suffixText small

namespace View

variable {v : View} {q r r' : Rec} {key : Key} {n : ℕ}

theorem Sound.init : (⟨[], fun _ => none⟩ : View).Sound :=
  ⟨by simp, by simp, by simp⟩

theorem Sound.unlink (h : v.Sound) (key : Key) : (v.unlink key).Sound := by
  refine ⟨h.inj, h.known, fun k o found => ?_⟩
  simp only [View.unlink, Function.update_apply] at found
  split_ifs at found
  exact h.table k o found

theorem Sound.log (h : v.Sound) (known : r.Known) (new : ∀ q ∈ v.recs, q.off ≠ r.off) :
    (v.log r).Sound := by
  refine ⟨fun p hp q hq same => ?_, fun q hq => ?_, fun k o found => ?_⟩
  · rcases List.mem_append.1 hp with hp | hp <;> rcases List.mem_append.1 hq with hq | hq
    · exact h.inj p hp q hq same
    · rw [List.mem_singleton.1 hq] at same
      exact absurd same (new p hp)
    · rw [List.mem_singleton.1 hp] at same
      exact absurd same.symm (new q hq)
    · rw [List.mem_singleton.1 hp, List.mem_singleton.1 hq]
  · rcases List.mem_append.1 hq with hq | hq
    · exact h.known q hq
    · exact List.mem_singleton.1 hq ▸ known
  · obtain ⟨q, hq, rest⟩ := h.table k o found
    exact ⟨q, List.mem_append_left _ hq, rest⟩

theorem Sound.link (h : v.Sound) (mem : r ∈ v.recs) (flags : r.flags = storedFlags) :
    (v.link r.key r.off).Sound := by
  refine ⟨h.inj, h.known, fun k o found => ?_⟩
  simp only [View.link, Function.update_apply] at found
  split_ifs at found with same
  · exact ⟨r, mem, Option.some.inj found, same.symm, flags⟩
  · exact h.table k o found

theorem mem_put_iff (h : v.Sound) (mem : r ∈ v.recs) (off : r'.off = r.off) :
    q ∈ (v.put r').recs ↔ q = r' ∨ q ∈ v.recs ∧ q ≠ r := by
  simp only [put, List.mem_map]
  constructor
  · rintro ⟨p, hp, eq⟩
    split_ifs at eq with same
    · exact Or.inl eq.symm
    · subst eq
      exact Or.inr ⟨hp, fun eq => same (by rw [eq, off])⟩
  · rintro (rfl | ⟨hq, other⟩)
    · exact ⟨r, mem, if_pos off.symm⟩
    · exact ⟨q, hq, if_neg fun same => other (h.inj q hq r mem (same.trans off))⟩

theorem Sound.put (h : v.Sound) (mem : r ∈ v.recs) (dirty : r.flags = dirtyFlags)
    (off : r'.off = r.off) (known : r'.Known) : (v.put r').Sound := by
  refine ⟨fun p hp q hq same => ?_, fun q hq => ?_, fun k o found => ?_⟩
  · rw [mem_put_iff h mem off] at hp hq
    rcases hp with rfl | ⟨hp, hp'⟩ <;> rcases hq with rfl | ⟨hq, hq'⟩
    · rfl
    · exact absurd (h.inj q hq r mem (same.symm.trans off)) hq'
    · exact absurd (h.inj p hp r mem (same.trans off)) hp'
    · exact h.inj p hp q hq same
  · rcases (mem_put_iff h mem off).1 hq with rfl | ⟨hq, -⟩
    · exact known
    · exact h.known q hq
  · obtain ⟨q, hq, hoff, hkey, flags⟩ := h.table k o found
    refine ⟨q, (mem_put_iff h mem off).2 (Or.inr ⟨hq, ?_⟩), hoff, hkey, flags⟩
    rintro rfl
    exact absurd (dirty.symm.trans flags) (by decide)

theorem Sound.drop (h : v.Sound) (n : ℕ) : (v.drop n).Sound := by
  refine ⟨fun p hp q hq => h.inj p (List.mem_of_mem_drop hp) q (List.mem_of_mem_drop hq),
    fun q hq => h.known q (List.mem_of_mem_drop hq), fun k o found => ?_⟩
  obtain ⟨found, away⟩ := Option.filter_eq_some_iff.1 found
  obtain ⟨r, mem, off, rest⟩ := h.table k o found
  rw [← List.take_append_drop n v.recs] at mem
  rcases List.mem_append.1 mem with mem | mem
  · exact absurd off (of_decide_eq_true away r mem)
  · exact ⟨r, mem, off, rest⟩

end View

end LogMemcached
