import LogMemcached.MultiGet

/-!
# The end of a multi-get

While no list growth and no `add_iov` fails, every key of a line has its turn and every hit is in
the response.  A turn that fails is repeated on its key alone: a failure that persists is repeated
for ever, and one that does not leaves out the keys behind it.
-/

namespace LogMemcached

open Transition

/-- The lists can grow and every piece of the response is added; `cache_alloc` may still fail. -/
structure TurnEnv.Smooth (env : TurnEnv) : Prop where
  growItems : env.growItems = true
  growSuffixes : env.growSuffixes = true
  addIov : ∀ j, env.addIov j = .added

def TurnEnv.pieces (returnCas : Bool) (env : TurnEnv) : List GetPiece :=
  match env.item with
  | none => []
  | some it => checkedPieces returnCas it env.suffix ++ uncheckedPieces returnCas it

theorem addPieces_added {results : ℕ → IovResult} (added : ∀ j, results j = .added) (j : ℕ)
    (ps response : List GetPiece) : addPieces results j ps response = (true, response ++ ps) := by
  induction ps generalizing j response with
  | nil => rw [addPieces, List.append_nil]
  | cons p ps ih =>
    rw [addPieces, added j]
    dsimp only
    rw [ih, List.append_assoc, List.singleton_append]

namespace MultiGet

variable {returnCas : Bool} {env : TurnEnv} {s s' : MultiGet} {it : ℕ} {k : List UInt8}
  {ks : List (List UInt8)}

/-- The keys that a running command has still to look up, the first at `key_token`. -/
structure Left (s : MultiGet) (keys : List (List UInt8)) : Prop where
  running : s.reply = none
  tokens : ∃ batch rest, s.keyToken = batch ++ [CommandLine.terminal rest] ∧ rest.buf = s.buf ∧
    (∀ t ∈ batch, t.Held) ∧ batch ≠ [] ∧ keys = batch.map (Token.text s.buf) ++ words rest.text

/-- The command goes on with the keys `ks`, or ends when there are none. -/
def Goes (returnCas : Bool) (env : TurnEnv) (s s' : MultiGet) (ks : List (List UInt8)) : Prop :=
  ∃ buf tokens,
    ks ≠ [] ∧ s' = { s with buf, keyToken := tokens } ∧ Left s' ks ∨
      ks = [] ∧ s' = finish returnCas env { s with buf, keyToken := tokens }

theorem outer_rest {rest : CommandLine} (running : s.reply = none)
    (tokens : s.keyToken = [rest.terminal]) (buf : rest.buf = s.buf) (env : TurnEnv) :
    ∃ s', s.outer returnCas env = some s' ∧ Goes returnCas env s s' (words rest.text) := by
  rw [outer, tokens]
  by_cases ended : rest.text = []
  · have done : words rest.text = [] := by rw [ended]; rfl
    have null : rest.terminal.value = none := if_pos ended
    simp only [List.head?_cons, Option.bind_some, null]
    exact ⟨_, rfl, s.buf, s.keyToken, .inr ⟨done, rfl⟩⟩
  · obtain ⟨st, batch, left, -, -, tokenized, round⟩ :=
      tokenize_round rest (by decide : 1 < maxTokens)
    have value : rest.terminal.value = some rest.command := if_neg ended
    simp only [List.head?_cons, Option.bind_some, value, ← buf, tokenized, Option.bind_eq_bind]
    cases batch with
    | nil =>
      -- only white space was left
      have last := round.ended_of_nil (by decide)
      have done : words rest.text = [] := by rw [round.texts, last]; rfl
      have null : left.terminal.value = none := if_pos last
      simp only [List.nil_append, List.head?_cons, Option.bind_some, null, Option.isNone_none,
        if_true]
      exact ⟨_, rfl, _, _, .inr ⟨done, rfl⟩⟩
    | cons t batch =>
      have begun : t.value.isNone = false := by
        simpa using (round.held t List.mem_cons_self).2
      simp only [List.cons_append, List.head?_cons, Option.bind_some, begun,
        if_neg Bool.false_ne_true]
      refine ⟨_, rfl, _, _, .inl ⟨?_, rfl, running, t :: batch, left, rfl, round.buf_eq, round.held,
        List.cons_ne_nil _ _, round.texts⟩⟩
      rw [round.texts]
      exact List.cons_ne_nil _ _

theorem Left.advance (h : Left s (k :: ks)) (env : TurnEnv) :
    ∃ s', s.advance returnCas env = some s' ∧ Goes returnCas env s s' ks := by
  obtain ⟨batch, rest, tokens, buf, held, begun, keys⟩ := h.tokens
  obtain ⟨t, batch, rfl⟩ := List.exists_cons_of_ne_nil begun
  rw [List.map_cons, List.cons_append, List.cons.injEq] at keys
  obtain ⟨-, rfl⟩ := keys
  rw [MultiGet.advance, tokens]
  cases batch with
  | nil =>
    have null : rest.terminal.length = 0 := rfl
    simp only [List.singleton_append, List.tail_cons, List.head?_cons, Option.map_some,
      Option.getD_some, null, if_true]
    exact outer_rest (s := { s with keyToken := [rest.terminal] }) h.running rfl buf env
  | cons u batch =>
    have word : (((t :: u :: batch ++ [rest.terminal]).tail.head?.map Token.length).getD 0) ≠ 0 :=
      (held u (by simp)).1
    dsimp only
    rw [if_neg word]
    refine ⟨_, rfl, s.buf, u :: batch ++ [rest.terminal], .inl ⟨by simp, rfl, h.running, u :: batch,
      rest, rfl, buf, ?_, List.cons_ne_nil _ _, rfl⟩⟩
    exact fun t mem => held t (List.mem_cons_of_mem _ mem)

theorem hitEnd_smooth (smooth : env.Smooth) (s : MultiGet) (it : ℕ) :
    returnCas = true ∧ env.suffix = none ∧ s.hitEnd returnCas env it = .noSuffix ∨
      ∃ suffix, s.hitEnd returnCas env it = .recorded suffix ∧
        checkedPieces returnCas it suffix = checkedPieces returnCas it env.suffix := by
  have grown : ∀ full : Prop, ¬(full ∧ env.growItems = false) ∧ ¬(full ∧ env.growSuffixes = false) := by
    simp [smooth.growItems, smooth.growSuffixes]
  rw [hitEnd, if_neg (grown _).1]
  cases returnCas with
  | false =>
    simp only [Bool.false_eq_true, if_false, addPieces_added smooth.addIov, if_true]
    exact .inr ⟨none, rfl, rfl⟩
  | true =>
    rw [if_pos rfl, if_neg (grown _).2]
    cases suffix : env.suffix with
    | none => exact .inl ⟨rfl, rfl, rfl⟩
    | some b =>
      simp only [addPieces_added smooth.addIov, if_true]
      exact .inr ⟨some b, rfl, rfl⟩

/-- What a turn that is not refused does: the first key is looked up, and the pieces of what is
found are added. -/
structure Served (returnCas : Bool) (env : TurnEnv) (s s' : MultiGet) (k : List UInt8)
    (ks : List (List UInt8)) : Prop where
  looked : s'.looked = s.looked ++ [k]
  goesOn : ks ≠ [] → Left s' ks ∧ s'.response = s.response ++ env.pieces returnCas
  ends : ks = [] → s'.reply = some .noMemoryWriting ∨
    s'.reply = some .values ∧ s'.response = s.response ++ env.pieces returnCas ++ [.endLine]

theorem Goes.served {s₁ : MultiGet} (h : Goes returnCas env s₁ s' ks)
    (looked : s₁.looked = s.looked ++ [k])
    (response : s₁.response = s.response ++ env.pieces returnCas) :
    Served returnCas env s s' k ks := by
  obtain ⟨buf, tokens, ⟨more, rfl, left⟩ | ⟨rfl, rfl⟩⟩ := h
  · exact ⟨looked, fun _ => ⟨left, response⟩, fun none => absurd none more⟩
  · refine ⟨looked, fun more => absurd rfl more, fun _ => ?_⟩
    cases added : env.addEnd with
    | false => exact .inl (by simp [finish, added])
    | true => exact .inr (by simp [finish, added, response])

theorem Left.turn (h : Left s (k :: ks)) (returnCas : Bool) (smooth : env.Smooth) :
    ∃ s', s.turn returnCas env = some s' ∧
      (s'.reply = some .badFormat ∨ s'.reply = some .noMemorySuffix ∨
        Served returnCas env s s' k ks) := by
  obtain ⟨batch, rest, tokens, buf, held, begun, keys⟩ := h.tokens
  obtain ⟨t, batch, rfl⟩ := List.exists_cons_of_ne_nil begun
  have key : k = t.text s.buf := by
    rw [List.map_cons, List.cons_append, List.cons.injEq] at keys
    exact keys.1
  rw [MultiGet.turn, tokens, List.cons_append]
  dsimp only
  by_cases long : t.length > keyMaxLength
  · rw [if_pos long]
    exact ⟨_, rfl, .inl rfl⟩
  · rw [if_neg long]
    have looked : Left (s.look t) (k :: ks) := ⟨h.running, h.tokens⟩
    cases found : env.item with
    | none =>
      obtain ⟨s', moved, goes⟩ := looked.advance env
      refine ⟨s', moved, .inr (.inr (goes.served (by rw [key]; rfl) ?_))⟩
      rw [TurnEnv.pieces, found]
      exact (List.append_nil _).symm
    | some it =>
      dsimp only
      rw [hit]
      obtain ⟨-, -, ended⟩ | ⟨suffix, ended, same⟩ := hitEnd_smooth smooth (s.look t) it
      · rw [ended]
        exact ⟨_, rfl, .inr (.inl rfl)⟩
      · rw [ended]
        obtain ⟨isize, suffixsize, grown⟩ := grow_eq returnCas env (s.look t)
        have left : Left ((((s.look t).grow returnCas env).takeSuffix suffix).record returnCas env it
            suffix) (k :: ks) := by
          rw [grown]
          exact ⟨h.running, h.tokens⟩
        obtain ⟨s', moved, goes⟩ := left.advance env
        refine ⟨s', moved, .inr (.inr (goes.served (by rw [grown, key]; rfl) ?_))⟩
        rw [grown, record, takeSuffix, TurnEnv.pieces, found]
        simp only [addPieces_added smooth.addIov, same, List.append_assoc]
        rfl

theorem range_stream (envs : ℕ → TurnEnv) (n m : ℕ) :
    ((List.range (m + 1)).map fun j => envs (n + j)) =
      envs n :: (List.range m).map fun j => envs (n + 1 + j) := by
  rw [List.range_succ_eq_map, List.map_cons, List.map_map, Nat.add_zero]
  simp only [Function.comp_def, Nat.succ_eq_add_one, Nat.add_assoc, Nat.add_comm 1]

/-- By induction on the keys: the command returns, and if it returns with the end of the response
every key has been looked up and every hit is in the response. -/
theorem Left.run {keys : List (List UInt8)} (h : Left s keys) (returnCas : Bool)
    {envs : ℕ → TurnEnv} (smooth : ∀ n, (envs n).Smooth) (n : ℕ) :
    ∃ m s' reply, Run (Step returnCas) s ((List.range m).map fun j => envs (n + j)) s' ∧
      s'.reply = some reply ∧
      (reply = .values → m = keys.length ∧ s'.looked = s.looked ++ keys ∧
        s'.response = s.response ++
          ((List.range m).map fun j => envs (n + j)).flatMap (TurnEnv.pieces returnCas) ++
          [.endLine]) := by
  induction keys generalizing s n with
  | nil =>
    obtain ⟨batch, rest, -, -, -, begun, keys⟩ := h.tokens
    exact absurd (List.map_eq_nil_iff.1 (List.append_eq_nil_iff.1 keys.symm).1) begun
  | cons k ks ih =>
    obtain ⟨s₁, moved, refused⟩ := h.turn returnCas (smooth n)
    have first : Step returnCas s (envs n) s₁ := ⟨h.running, moved⟩
    have single : Run (Step returnCas) s ((List.range 1).map fun j => envs (n + j)) s₁ := .one first
    obtain format | suffix | served := refused
    · exact ⟨1, s₁, _, single, format, nofun⟩
    · exact ⟨1, s₁, _, single, suffix, nofun⟩
    · by_cases last : ks = []
      · obtain failed | ⟨values, response⟩ := served.ends last
        · exact ⟨1, s₁, _, single, failed, nofun⟩
        · refine ⟨1, s₁, _, single, values, fun _ => ⟨by rw [last]; rfl, ?_, ?_⟩⟩
          · rw [served.looked, last]
          · rw [response]
            simp
      · obtain ⟨left, response⟩ := served.goesOn last
        obtain ⟨m, s', reply, run, replied, complete⟩ := ih left (n + 1)
        refine ⟨m + 1, s', reply, ?_, replied, fun values => ?_⟩
        · rw [range_stream]
          exact .cons first run
        · obtain ⟨count, looked, content⟩ := complete values
          refine ⟨by rw [count, List.length_cons], ?_, ?_⟩
          · rw [looked, served.looked, List.append_assoc, List.singleton_append]
          · rw [content, response, range_stream, List.flatMap_cons]
            simp only [List.append_assoc]

/-- At the start of a command every word behind the command's name is still to be looked up. -/
theorem left_start {line : CommandLine} {name : List UInt8} {keys : List (List UInt8)}
    (text : words line.text = name :: keys) (named : keys ≠ []) (isize suffixsize : ℕ) :
    ∃ buf tokens, tokenize line.buf line.command maxTokens = some (buf, tokens) ∧
      Left (start buf tokens isize suffixsize) keys := by
  obtain ⟨st, batch, rest, -, -, tokenized, round⟩ :=
    tokenize_round line (by decide : 1 < maxTokens)
  refine ⟨_, _, tokenized, rfl, ?_⟩
  have texts := text.symm.trans round.texts
  cases batch with
  | nil =>
    rw [round.ended_of_nil (by decide)] at texts
    cases texts
  | cons t batch =>
    rw [List.map_cons, List.cons_append, List.cons.injEq] at texts
    refine ⟨batch, rest, rfl, round.buf_eq, fun u mem => round.held u (List.mem_cons_of_mem _ mem),
      ?_, texts.2⟩
    rintro rfl
    -- one word fills no array of eight tokens, so it was the last one
    have ended : rest.text = [] := by
      by_contra more
      exact absurd (round.full more) (by simp [maxTokens])
    rw [ended] at texts
    exact named texts.2

/-- While no list growth and no `add_iov` fails, a `get` or `gets` with any number of keys returns;
and if it returns with `END`, every key of the line has been looked up, in the order of the line,
and the response has the pieces of every hit. -/
theorem multi_get_complete (returnCas : Bool) (line : CommandLine) {name : List UInt8}
    {keys : List (List UInt8)} (text : words line.text = name :: keys) (named : keys ≠ [])
    (isize suffixsize : ℕ) {envs : ℕ → TurnEnv} (smooth : ∀ n, (envs n).Smooth) :
    ∃ buf tokens m s reply, tokenize line.buf line.command maxTokens = some (buf, tokens) ∧
      Run (Step returnCas) (start buf tokens isize suffixsize) ((List.range m).map envs) s ∧
      s.reply = some reply ∧
      (reply = .values → m = keys.length ∧ s.looked = keys ∧
        s.response = ((List.range m).map envs).flatMap (TurnEnv.pieces returnCas) ++ [.endLine]) := by
  obtain ⟨buf, tokens, tokenized, left⟩ := left_start text named isize suffixsize
  obtain ⟨m, s, reply, run, replied, complete⟩ := left.run returnCas smooth 0
  simp only [Nat.zero_add] at run complete
  exact ⟨buf, tokens, m, s, reply, tokenized, run, replied, complete⟩

/-- The line `get a b` in a read buffer. -/
def getTwo : CommandLine where
  before := []
  text := "get a b".toUTF8.toList
  after := []
  noNul := by decide +kernel
  sized := by decide +kernel

theorem multi_get_complete_two : ∃ buf tokens m s reply,
    tokenize getTwo.buf getTwo.command maxTokens = some (buf, tokens) ∧
      Run (Step false) (start buf tokens 200 20) ((List.range m).map plentiful) s ∧
      s.reply = some reply ∧
      (reply = .values → m = 2 ∧ s.looked = ["a".toUTF8.toList, "b".toUTF8.toList] ∧
        s.response = ((List.range m).map plentiful).flatMap (TurnEnv.pieces false) ++ [.endLine]) :=
  @multi_get_complete false getTwo "get".toUTF8.toList ["a".toUTF8.toList, "b".toUTF8.toList]
    (by decide +kernel) (by decide) 200 20 plentiful fun _ => ⟨rfl, rfl, fun _ => rfl⟩

/-- A turn that finds the item `it` and cannot add the first piece. -/
def short (it : ℕ) : TurnEnv := { plentiful it with addIov := fun _ => .failed false }

/-- The read buffer of `get a` after its tokens have been cut. -/
def cutGet : List UInt8 := "get".toUTF8.toList ++ 0 :: "a".toUTF8.toList ++ [0]

/-- The state in which `get a` stays while nothing can be added. -/
structure Stuck (s : MultiGet) : Prop where
  buf : s.buf = cutGet
  tokens : s.keyToken = [⟨some 4, 1⟩, ⟨none, 0⟩]
  room : s.ilist.length < s.isize
  running : s.reply = none

theorem Stuck.turn (h : Stuck s) : ∃ s', Step false s (short 9) s' ∧ Stuck s' := by
  have again : tokenize cutGet 4 maxTokens = some (cutGet, [⟨some 4, 1⟩, ⟨none, 0⟩]) := by
    decide +kernel
  have ended : (s.look ⟨some 4, 1⟩).hitEnd false (short 9) 9 = .broken none := by
    rw [hitEnd, if_neg (by simp [short, plentiful])]
    rfl
  have grown : (s.look ⟨some 4, 1⟩).grow false (short 9) = s.look ⟨some 4, 1⟩ := by
    have room : ¬(s.look ⟨some 4, 1⟩).isize ≤ (s.look ⟨some 4, 1⟩).ilist.length :=
      Nat.not_le.2 h.room
    simp [grow, room]
  have found : (short 9).item = some 9 := rfl
  have moved : s.turn false (short 9) =
      (((s.look ⟨some 4, 1⟩).takeSuffix none).breakOff false (short 9) 9 none).outer false
        (short 9) := by
    rw [MultiGet.turn, h.tokens]
    dsimp only
    rw [if_neg (by decide)]
    simp only [found, hit, ended, grown]
  rw [outer] at moved
  simp only [breakOff, takeSuffix, look, h.tokens, h.buf, List.head?_cons, Option.bind_some, again,
    Option.bind_eq_bind] at moved
  exact ⟨_, ⟨h.running, moved⟩, rfl, rfl, h.room, h.running⟩

/-- `get a` never returns while nothing can be added to the response; and `get a b` after one failure
to add the first piece returns with `END` although `b` has not been looked up. -/
theorem failed_piece_repeats_and_drops :
    (∃ buf tokens, tokenize ("get a".toUTF8.toList ++ [0]) 0 maxTokens = some (buf, tokens) ∧
      ∀ n, ∃ s, Run (Step false) (start buf tokens 200 20) (List.replicate n (short 9)) s ∧
        s.reply = none) ∧
    ∃ buf tokens s, tokenize getTwo.buf getTwo.command maxTokens = some (buf, tokens) ∧
      Run (Step false) (start buf tokens 200 20) [short 9, plentiful 9] s ∧
      s.reply = some .values ∧ s.looked = ["a".toUTF8.toList, "a".toUTF8.toList] ∧
      s.response = [.value, .key 9, .suffixAndData 9, .endLine] := by
  constructor
  · refine ⟨cutGet, [⟨some 0, 3⟩, ⟨some 4, 1⟩, ⟨none, 0⟩], by decide +kernel, fun n => ?_⟩
    suffices stuck : ∃ s, Run (Step false) _ (List.replicate n (short 9)) s ∧ Stuck s from
      stuck.imp fun s h => ⟨h.1, h.2.running⟩
    induction n with
    | zero => exact ⟨_, .nil _, rfl, rfl, (by decide : 0 < 200), rfl⟩
    | succ n ih =>
      obtain ⟨s, run, stuck⟩ := ih
      obtain ⟨s', step, stuck⟩ := stuck.turn
      rw [List.replicate_succ']
      exact ⟨s', run.append (.one step), stuck⟩
  · obtain ⟨⟨buf, tokens⟩, tokenized⟩ : ∃ p,
        tokenize getTwo.buf getTwo.command maxTokens = some p :=
      Option.isSome_iff_exists.1 (by decide +kernel)
    have ended : (tokenize getTwo.buf getTwo.command maxTokens).bind (fun p =>
        ((start p.1 p.2 200 20).turn false (short 9)).bind fun s =>
          (s.turn false (plentiful 9)).map fun s' => (s.reply, s'.reply, s'.looked, s'.response)) =
        some (none, some .values, ["a".toUTF8.toList, "a".toUTF8.toList],
          [.value, .key 9, .suffixAndData 9, .endLine]) := by
      decide +kernel
    rw [tokenized, Option.bind_some] at ended
    obtain ⟨s, first, ended⟩ := Option.bind_eq_some_iff.1 ended
    obtain ⟨s', second, ended⟩ := Option.map_eq_some_iff.1 ended
    simp only [Prod.mk.injEq] at ended
    obtain ⟨running, reply, looked, response⟩ := ended
    exact ⟨buf, tokens, s', tokenized, .cons ⟨rfl, first⟩ (.one ⟨running, second⟩), reply, looked,
      response⟩

end MultiGet

end LogMemcached
