import LogMemcached.Assertions
import LogMemcached.Counters

/-!
# Interleaved runs

In every state that interleaved connections and the cleaner reach, no assertion but the one on the
pool can fail, and a data block is received into a record of its own: one that a reader of the log
does not take for complete and that neither the table nor another upload has.  The table holds
complete records, one for each key.
-/

namespace LogMemcached

open ByteMem Tiling Fallible Store Transition

section Runs

variable {ι : Type} [Fintype ι] [DecidableEq ι] {srv : Server ι} {settings : Settings}
  {limit now : ℕ} {as : List (Action ι)} {lay : Layout} {leaked : Multiset ℕ} {c : ι} {b : Block}

/-- The bytes that a connection still has to receive into the log. -/
def Conn.target : Conn → Option Block
  | .nread _ _ ritem rlbytes _ _ => some ⟨ritem, rlbytes⟩
  | _ => none

theorem dirtyFlags_room : ntotalCasRoom dirtyFlags = casRoom dirtyFlags := by decide

omit [DecidableEq ι] in
/-- The record of an upload ends where its data block ends. -/
theorem ServerInv.target (h : ServerInv srv lay leaked) {t : Block}
    (filling : (srv.conns c).target = some t) :
    ∃ b ∈ lay.live, (srv.conns c).uploadOff srv.store = some b.off ∧
      flagsOf srv.store.log.mem b.off = dirtyFlags ∧ b.off < t.off ∧ t.stop = b.stop ∧
      ∀ k ∈ srv.store.table, srv.store.itemOf k ≠ b.off := by
  have own := h.conn c
  cases conn : srv.conns c with
  | nread comm id ritem rlbytes start got =>
    rw [conn] at own filling
    obtain rfl := Option.some.inj filling
    obtain ⟨r, up⟩ := own
    obtain ⟨b, hb, rfl⟩ := SweepInv.mem_journal.1 up.fresh.mem
    have flags : flagsOf srv.store.log.mem b.off = dirtyFlags := up.fresh.flags
    have size := (h.inv.wholeRec hb).size_eq
    have left := up.left
    have cursor := up.cursor
    simp only [recOf, Rec.dataOff, keyOf, suffixOf, dataOf, length_slice, flags] at left cursor
    rw [flags, dirtyFlags_room] at size
    refine ⟨b, hb, congrArg some up.fresh.off.symm, flags, ?_, ?_, up.fresh.apart h.inv h.sound⟩
    · rw [cursor]
      simp only [sizeofItemData]
      omega
    · simp only [Block.stop]
      omega
  | _ =>
    rw [conn] at filling
    cases filling

omit [Fintype ι] [DecidableEq ι] in
/-- The blocks of a layout that begin apart are disjoint. -/
theorem StoreInv.disjoint {s : Store} {d : Block} (h : StoreInv s lay) (hb : b ∈ lay.live)
    (hd : d ∈ lay.live) (other : b.off ≠ d.off) : b.Disjoint d :=
  h.log.pairwise.forall hb hd fun eq => other (congrArg Block.off eq)

/-- What a connection receives goes to the end of a record that no reader takes for complete, apart
from all records of the table and from all that other connections receive. -/
theorem uploads_isolated (cas : settings.useCas = true) (large : 35 ≤ limit) (small : limit < 2 ^ 32)
    (run : Run (Server.Good fun _ _ => True) (.init settings limit now : Server ι) as srv) {t : Block}
    (filling : (srv.conns c).target = some t) :
    ∃ b ∈ srv.store.log.records, b.off < t.off ∧ t.stop = b.stop ∧
      has (flagsOf srv.store.log.mem b.off) itemStored = false ∧
      (∀ id ∈ srv.store.table, b.Disjoint (srv.store.blockOf id)) ∧
      ∀ c' ≠ c, ∀ t', (srv.conns c').target = some t' → t.Disjoint t' := by
  obtain ⟨lay, leaked, h, -⟩ := tended_of_run cas large small run
  obtain ⟨b, hb, off, flags, start, stop, apart⟩ := h.target filling
  refine ⟨b, by rw [h.inv.log.records_eq]; exact hb, start, stop, by rw [flags]; decide, ?_, ?_⟩
  · intro id member
    exact h.inv.disjoint hb (h.inv.blockOf_mem member) (apart id member).symm
  · intro c' other t' filling'
    obtain ⟨b', hb', off', -, start', stop', -⟩ := h.target filling'
    have differ : b.off ≠ b'.off := fun eq => other (h.apart c' c b.off (eq ▸ off') off)
    have disjoint := h.inv.disjoint hb hb' differ
    simp only [Block.Disjoint] at disjoint ⊢
    omega

/-! ## Linked items -/

/-- The items of the table have complete records of the log, disjoint ones, and different keys. -/
theorem linked_items_complete (cas : settings.useCas = true) (large : 35 ≤ limit)
    (small : limit < 2 ^ 32)
    (run : Run (Server.Good fun _ _ => True) (.init settings limit now : Server ι) as srv) {id : ℕ}
    (member : id ∈ srv.store.table) :
    srv.store.blockOf id ∈ srv.store.log.records ∧
      flagsOf srv.store.log.mem (srv.store.itemOf id) = storedFlags ∧
      ∀ k ∈ srv.store.table, k ≠ id → srv.store.keyAt k ≠ srv.store.keyAt id ∧
        (srv.store.blockOf k).Disjoint (srv.store.blockOf id) := by
  obtain ⟨lay, leaked, h, -⟩ := tended_of_run cas large small run
  obtain ⟨-, flags⟩ := h.inv.stored_of_linked h.sound ((h.inv.linked id).1 member)
  refine ⟨by rw [h.inv.log.records_eq]; exact h.inv.blockOf_mem member, flags, ?_⟩
  intro k hk other
  refine ⟨fun same => other (h.inv.keys k hk id member same), ?_⟩
  refine h.inv.disjoint (h.inv.blockOf_mem hk) (h.inv.blockOf_mem member) fun off => other ?_
  exact h.inv.keys k hk id member (congrArg (keyOf srv.store.log.mem) off)

end Runs

/-! ## An append -/

/-- Before the `append` of `appendTrace` is completed. -/
theorem append_meets : ∃ srv,
    Run (Server.Good fun _ _ => True) (.init started memlogDefaultSize 62) appendTrace srv ∧
      srv.meets (.complete ()) = true ∧ srv.store.freelist ≠ [] ∧
      (srv.conns ()).target = some ⟨70, 0⟩ ∧ srv.store.table = [22369620] := by
  have eval : (appendTrace.foldlM (fun (srv : Server Unit) a =>
      if srv.meets a then srv.next a else none) (.init started memlogDefaultSize 62)).map
      (fun srv => (srv.meets (.complete ()), srv.store.freelist.isEmpty, (srv.conns ()).target,
        srv.store.table)) = some (true, false, some ⟨70, 0⟩, [22369620]) := by
    decide +kernel
  obtain ⟨srv, fold, eq⟩ := Option.map_eq_some_iff.1 eval
  simp only [Prod.mk.injEq, List.isEmpty_eq_false_iff] at eq
  exact ⟨srv, Server.good_of_meets fold, eq⟩

theorem uploads_isolated_append : ∃ srv,
    Run (Server.Good fun _ _ => True) (.init started memlogDefaultSize 62) appendTrace srv ∧
      ∃ b ∈ srv.store.log.records, b.off < 70 ∧ 70 = b.stop ∧
        ∀ id ∈ srv.store.table, b.Disjoint (srv.store.blockOf id) := by
  obtain ⟨srv, run, -, -, filling, -⟩ := append_meets
  obtain ⟨b, hb, start, stop, -, apart, -⟩ :=
    uploads_isolated rfl (by decide) (by decide) run filling
  exact ⟨srv, run, b, hb, start, stop, apart⟩

theorem linked_items_complete_append : ∃ srv id,
    Run (Server.Good fun _ _ => True) (.init started memlogDefaultSize 62) appendTrace srv ∧
      id ∈ srv.store.table ∧ srv.store.blockOf id ∈ srv.store.log.records := by
  obtain ⟨srv, run, -, -, -, table⟩ := append_meets
  have member : 22369620 ∈ srv.store.table := by
    rw [table]
    exact List.mem_singleton_self _
  exact ⟨srv, _, run, member, (linked_items_complete rfl (by decide) (by decide) run member).1⟩

end LogMemcached
