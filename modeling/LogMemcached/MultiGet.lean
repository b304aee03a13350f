import LogMemcached.Tokens
import LogMemcached.Lib.Run

/-!
# Multi-get with failing allocations

`process_get_command` with every exit of its loops.  A turn looks up one key; what the lookup finds
and which allocations succeed is arbitrary.  A turn that cannot grow a list or add to the response
breaks out of the inner loop only, and the outer loop takes the tokens from the key that failed.
-/

namespace LogMemcached

open Transition

/-- What `add_iov` does with one piece: it is added, or memory runs out, possibly after a fragment of
it was added. -/
inductive IovResult
  | added
  | failed (torn : Bool)
deriving DecidableEq, Repr

inductive GetPiece
  | value
  | key (it : ℕ)
  | suffix (it : ℕ)
  | cas (buffer : ℕ)
  | data (it : ℕ)
  | suffixAndData (it : ℕ)
  | torn
  | endLine
deriving DecidableEq, Repr

/-- What `item_update` does with the item: nothing to its reference; under `lru_log` the item is
replaced and the reference released; or it should be, the new item does not fit, and the reference is
released all the same. -/
inductive ItemUpdate
  | kept
  | replaced (newIt : ℕ)
  | notReplaced
deriving DecidableEq, Repr

/-- What a turn meets: the item that `item_get` returns, whether the lists could grow, the buffer of
`cache_alloc`, the results of the turn's `add_iov` calls, what `item_update` does, and whether the
end of the response can be added, should the command end with this turn. -/
structure TurnEnv where
  item : Option ℕ
  growItems : Bool
  growSuffixes : Bool
  suffix : Option ℕ
  addIov : ℕ → IovResult
  update : ItemUpdate
  addEnd : Bool

/-- The answers of `process_get_command`. -/
inductive GetReply
  | badFormat
  | noMemorySuffix
  | noMemoryWriting
  | values
deriving DecidableEq, Repr

/-- The variables of `process_get_command` and the connection's fields it uses.  `keyToken` are the
tokens from `key_token` on; `ilist` and `suffixlist` are the first `i` entries of the lists; `held`
and `suffixes` count the item references and the suffix buffers obtained and not yet released;
`looked` are the keys looked up so far. -/
structure MultiGet where
  buf : List UInt8
  keyToken : List Token
  isize : ℕ
  suffixsize : ℕ
  ilist : List ℕ
  suffixlist : List ℕ
  ileft : ℕ
  suffixleft : ℕ
  held : ℕ → ℤ
  suffixes : ℕ → ℤ
  response : List GetPiece
  looked : List (List UInt8)
  reply : Option GetReply

/-- Add pieces, from the call number `j` on, until one fails. -/
def addPieces (results : ℕ → IovResult) : ℕ → List GetPiece → List GetPiece → Bool × List GetPiece
  | _, [], response => (true, response)
  | j, p :: ps, response =>
      match results j with
      | .added => addPieces results (j + 1) ps (response ++ [p])
      | .failed torn => (false, response ++ if torn then [.torn] else [])

/-- The pieces of a hit whose failure breaks out of the loop. -/
def checkedPieces (returnCas : Bool) (it : ℕ) (suffix : Option ℕ) : List GetPiece :=
  if returnCas then [.value, .key it, .suffix it, .cas (suffix.getD 0)]
  else [.value, .key it, .suffixAndData it]

def uncheckedPieces (returnCas : Bool) (it : ℕ) : List GetPiece := if returnCas then [.data it] else []

/-- How a turn with a hit ends: the item is recorded; the turn breaks out because a list cannot
grow, or because a piece cannot be added, with the suffix buffer that it has allocated; or there is
no suffix buffer. -/
inductive HitEnd
  | recorded (suffix : Option ℕ)
  | noGrowth
  | broken (suffix : Option ℕ)
  | noSuffix
deriving DecidableEq, Repr

namespace MultiGet

def hitEnd (returnCas : Bool) (env : TurnEnv) (it : ℕ) (s : MultiGet) : HitEnd :=
  if s.isize ≤ s.ilist.length ∧ env.growItems = false then .noGrowth
  else if returnCas then
    if s.suffixsize ≤ s.ilist.length ∧ env.growSuffixes = false then .noGrowth
    else
      match env.suffix with
      | none => .noSuffix
      | some b =>
          if (addPieces env.addIov 0 (checkedPieces true it (some b)) s.response).1 then
            .recorded (some b)
          else .broken (some b)
  else if (addPieces env.addIov 0 (checkedPieces false it none) s.response).1 then .recorded none
  else .broken none

def grow (returnCas : Bool) (env : TurnEnv) (s : MultiGet) : MultiGet :=
  let full := s.isize ≤ s.ilist.length
  let s' := if full ∧ env.growItems then { s with isize := 2 * s.isize } else s
  if returnCas ∧ ¬(full ∧ env.growItems = false) ∧ s.suffixsize ≤ s.ilist.length ∧ env.growSuffixes then
    { s' with suffixsize := 2 * s.suffixsize }
  else s'

/-- `out_string` with an error after the references in `c->ilist` have been released. -/
def fail (s : MultiGet) (reply : GetReply) : MultiGet :=
  { s with held := fun it => s.held it - s.ilist.count it, reply := some reply }

def takeSuffix (s : MultiGet) (suffix : Option ℕ) : MultiGet :=
  { s with suffixes := fun b => s.suffixes b + suffix.toList.count b }

/-- The pieces of a turn that breaks out; the reference of its item is released. -/
def breakOff (returnCas : Bool) (env : TurnEnv) (it : ℕ) (suffix : Option ℕ) (s : MultiGet) :
    MultiGet :=
  { s with response := (addPieces env.addIov 0 (checkedPieces returnCas it suffix) s.response).2 }

/-- The entry of `c->ilist` for an item. -/
def recordedItem (it : ℕ) : ItemUpdate → ℕ
  | .replaced newIt => newIt
  | _ => it

/-- A hit is recorded: its pieces are added and `item_update` decides about the entry in
`c->ilist`. -/
def record (returnCas : Bool) (env : TurnEnv) (it : ℕ) (suffix : Option ℕ) (s : MultiGet) :
    MultiGet :=
  let checked := (addPieces env.addIov 0 (checkedPieces returnCas it suffix) s.response).2
  { s with
    response := (addPieces env.addIov 4 (uncheckedPieces returnCas it) checked).2
    held := fun x => s.held x + (if env.update = .kept then [it] else []).count x
    ilist := s.ilist ++ [recordedItem it env.update]
    suffixlist := s.suffixlist ++ suffix.toList }

/-- After the loops: the lists are handed to the connection and the end of the response is added. -/
def finish (returnCas : Bool) (env : TurnEnv) (s : MultiGet) : MultiGet :=
  { s with
    ileft := s.ilist.length
    suffixleft := if returnCas then s.ilist.length else s.suffixleft
    response := if env.addEnd then s.response ++ [.endLine] else s.response
    reply := some (if env.addEnd then .values else .noMemoryWriting) }

/-- The rest of the outer loop: the next tokens are taken from where `key_token` stands. -/
def outer (returnCas : Bool) (env : TurnEnv) (s : MultiGet) : Option MultiGet :=
  match s.keyToken.head?.bind Token.value with
  | none => some (s.finish returnCas env)
  | some v => do
      let (buf, tokens) ← tokenize s.buf v maxTokens
      let s := { s with buf, keyToken := tokens }
      if (tokens.head?.bind Token.value).isNone then some (s.finish returnCas env) else some s

/-- `key_token++`, and the outer loop when the tokens are used up. -/
def advance (returnCas : Bool) (env : TurnEnv) (s : MultiGet) : Option MultiGet :=
  let s := { s with keyToken := s.keyToken.tail }
  if (s.keyToken.head?.map Token.length).getD 0 = 0 then s.outer returnCas env else some s

def look (s : MultiGet) (t : Token) : MultiGet := { s with looked := s.looked ++ [t.text s.buf] }

def hit (returnCas : Bool) (env : TurnEnv) (it : ℕ) (s : MultiGet) : Option MultiGet :=
  match s.hitEnd returnCas env it with
  | .noSuffix => some ((s.grow returnCas env).fail .noMemorySuffix)
  | .noGrowth => (s.grow returnCas env).outer returnCas env
  | .broken suffix =>
      (((s.grow returnCas env).takeSuffix suffix).breakOff returnCas env it suffix).outer
        returnCas env
  | .recorded suffix =>
      (((s.grow returnCas env).takeSuffix suffix).record returnCas env it suffix).advance
        returnCas env

/-- A turn for the key at `key_token`. -/
def turn (returnCas : Bool) (env : TurnEnv) (s : MultiGet) : Option MultiGet :=
  match s.keyToken with
  | [] => none
  | t :: _ =>
      if t.length > keyMaxLength then some (s.fail .badFormat)
      else
        match env.item with
        | none => (s.look t).advance returnCas env
        | some it => (s.look t).hit returnCas env it

def Step (returnCas : Bool) (s : MultiGet) (env : TurnEnv) (s' : MultiGet) : Prop :=
  s.reply = none ∧ s.turn returnCas env = some s'

def start (buf : List UInt8) (tokens : List Token) (isize suffixsize : ℕ) : MultiGet where
  buf
  keyToken := tokens.tail
  isize
  suffixsize
  ilist := []
  suffixlist := []
  ileft := 0
  suffixleft := 0
  held _ := 0
  suffixes _ := 0
  response := []
  looked := []
  reply := none

end MultiGet

/-! ## What the command owns -/

namespace MultiGet

variable {returnCas : Bool} {env : TurnEnv} {s s' : MultiGet} {it : ℕ}

/-- The items that are recorded: those of the list, and after the return those that
`conn_release_items` will see. -/
def recordedItems (s : MultiGet) : List ℕ :=
  if s.reply = none then s.ilist else s.ilist.take s.ileft

def recordedSuffixes (s : MultiGet) : List ℕ :=
  if s.reply = none then s.suffixlist else s.suffixlist.take s.suffixleft

def itemGap (s : MultiGet) (x : ℕ) : ℤ := s.held x - s.recordedItems.count x

/-- The times a suffix buffer was obtained and neither recorded nor given back. -/
def suffixGap (s : MultiGet) (b : ℕ) : ℤ := s.suffixes b - s.recordedSuffixes.count b

/-- Every item reference and every suffix buffer that was obtained is recorded once, or has been
released. -/
def Owned (s : MultiGet) : Prop := (∀ x, s.itemGap x = 0) ∧ ∀ b, s.suffixGap b = 0

structure Running (returnCas : Bool) (s : MultiGet) : Prop where
  reply : s.reply = none
  ileft : s.ileft = 0
  suffixleft : s.suffixleft = 0
  suffixes : s.suffixlist.length = if returnCas then s.ilist.length else 0

/-- The entry that a turn with a hit makes without holding a reference for it. -/
def itemLoss (env : TurnEnv) (it : ℕ) : HitEnd → List ℕ
  | .recorded _ => if env.update = .kept then [] else [recordedItem it env.update]
  | _ => []

def suffixLoss (s : MultiGet) : HitEnd → List ℕ
  | .noSuffix => s.suffixlist
  | .broken suffix => suffix.toList
  | _ => []

def loss (returnCas : Bool) (env : TurnEnv) (s : MultiGet) : List ℕ × List ℕ :=
  match s.keyToken with
  | [] => ([], [])
  | t :: _ =>
      if t.length > keyMaxLength then ([], s.suffixlist)
      else
        match env.item with
        | none => ([], [])
        | some it =>
            (itemLoss env it (s.hitEnd returnCas env it),
              s.suffixLoss (s.hitEnd returnCas env it))

structure Loses (s s' : MultiGet) (items suffixes : List ℕ) : Prop where
  items : ∀ x, s'.itemGap x = s.itemGap x - items.count x
  suffixes : ∀ b, s'.suffixGap b = s.suffixGap b + suffixes.count b

theorem Loses.trans {s'' : MultiGet} {items suffixes : List ℕ} (h : Loses s s' items suffixes)
    (h' : Loses s' s'' [] []) : Loses s s'' items suffixes where
  items x := by simp [h'.items x, h.items x]
  suffixes b := by simp [h'.suffixes b, h.suffixes b]

theorem Loses.before {s'' : MultiGet} {items suffixes : List ℕ} (h : Loses s s' [] [])
    (h' : Loses s' s'' items suffixes) : Loses s s'' items suffixes where
  items x := by simp [h'.items x, h.items x]
  suffixes b := by simp [h'.suffixes b, h.suffixes b]

theorem Loses.of_eq (reply : s'.reply = s.reply) (ilist : s'.ilist = s.ilist)
    (ileft : s'.ileft = s.ileft) (suffixlist : s'.suffixlist = s.suffixlist)
    (suffixleft : s'.suffixleft = s.suffixleft) (held : s'.held = s.held)
    (suffixes : s'.suffixes = s.suffixes) : Loses s s' [] [] where
  items x := by simp [itemGap, recordedItems, *]
  suffixes b := by simp [suffixGap, recordedSuffixes, *]

theorem grow_eq (returnCas : Bool) (env : TurnEnv) (s : MultiGet) :
    ∃ isize suffixsize, s.grow returnCas env = { s with isize, suffixsize } := by
  simp only [grow]
  split_ifs
  · exact ⟨_, _, rfl⟩
  · exact ⟨_, _, rfl⟩
  · exact ⟨_, _, rfl⟩
  · exact ⟨_, _, rfl⟩

theorem Running.fail (h : Running returnCas s) (reply : GetReply) :
    Loses s (s.fail reply) [] s.suffixlist where
  items x := by
    simp [itemGap, h.reply, recordedItems, MultiGet.fail, h.ileft]
  suffixes b := by
    simp [suffixGap, h.reply, recordedSuffixes, MultiGet.fail, h.suffixleft]

theorem Running.finish (h : Running returnCas s) : Loses s (s.finish returnCas env) [] [] where
  items x := by simp [itemGap, h.reply, recordedItems, MultiGet.finish]
  suffixes b := by
    have length := h.suffixes
    have all : s.suffixlist.take (if returnCas then s.ilist.length else s.suffixleft) =
        s.suffixlist := by
      refine List.take_of_length_le ?_
      rw [length]
      split_ifs
      · exact Nat.le_refl _
      · exact Nat.zero_le _
    simp [suffixGap, h.reply, recordedSuffixes, MultiGet.finish, all]

/-- The turn loses these and, if the command is still running, its lists are in order. -/
def Turned (returnCas : Bool) (s s' : MultiGet) (items suffixes : List ℕ) : Prop :=
  Loses s s' items suffixes ∧ (s'.reply = none → Running returnCas s')

theorem Running.outer (h : Running returnCas s) (moved : s.outer returnCas env = some s') :
    Turned returnCas s s' [] [] := by
  have ended : Turned returnCas s (s.finish returnCas env) [] [] := ⟨h.finish, fun none => nomatch none⟩
  rw [MultiGet.outer] at moved
  split at moved
  · obtain rfl := Option.some.inj moved
    exact ended
  · obtain ⟨⟨buf, tokens⟩, -, moved⟩ := Option.bind_eq_some_iff.1 moved
    have taken : Running returnCas { s with buf, keyToken := tokens } :=
      ⟨h.reply, h.ileft, h.suffixleft, h.suffixes⟩
    have same : Loses s { s with buf, keyToken := tokens } [] [] := .of_eq rfl rfl rfl rfl rfl rfl rfl
    dsimp only at moved
    split_ifs at moved
    · obtain rfl := Option.some.inj moved
      exact ⟨same.trans taken.finish, fun none => nomatch none⟩
    · obtain rfl := Option.some.inj moved
      exact ⟨same, fun _ => taken⟩

theorem Running.advance (h : Running returnCas s) (moved : s.advance returnCas env = some s') :
    Turned returnCas s s' [] [] := by
  have next : Running returnCas { s with keyToken := s.keyToken.tail } :=
    ⟨h.reply, h.ileft, h.suffixleft, h.suffixes⟩
  have same : Loses s { s with keyToken := s.keyToken.tail } [] [] :=
    .of_eq rfl rfl rfl rfl rfl rfl rfl
  rw [MultiGet.advance] at moved
  dsimp only at moved
  split_ifs at moved
  · obtain ⟨loses, running⟩ := next.outer moved
    exact ⟨same.trans loses, running⟩
  · obtain rfl := Option.some.inj moved
    exact ⟨same, fun _ => next⟩

theorem Turned.after {s'' : MultiGet} {items suffixes : List ℕ}
    (h' : Turned returnCas s' s'' [] []) (h : Loses s s' items suffixes) :
    Turned returnCas s s'' items suffixes :=
  ⟨h.trans h'.1, h'.2⟩

theorem isSome_suffix {suffix : Option ℕ} (ended : s.hitEnd returnCas env it = .recorded suffix) :
    suffix.isSome = returnCas := by
  rw [hitEnd] at ended
  split_ifs at ended with items cas suffixes added
  · split at ended
    · cases ended
    · split_ifs at ended
      cases ended
      exact cas.symm
  · cases ended
    simpa using cas

theorem Running.grow (h : Running returnCas s) (env : TurnEnv) :
    Loses s (s.grow returnCas env) [] [] ∧ Running returnCas (s.grow returnCas env) ∧
      (s.grow returnCas env).suffixlist = s.suffixlist := by
  obtain ⟨isize, suffixsize, grown⟩ := grow_eq returnCas env s
  rw [grown]
  exact ⟨.of_eq rfl rfl rfl rfl rfl rfl rfl, ⟨h.reply, h.ileft, h.suffixleft, h.suffixes⟩, rfl⟩

theorem Running.breakOff (h : Running returnCas s) (env : TurnEnv) (it : ℕ) (suffix : Option ℕ) :
    Loses s ((s.takeSuffix suffix).breakOff returnCas env it suffix) [] suffix.toList ∧
      Running returnCas ((s.takeSuffix suffix).breakOff returnCas env it suffix) := by
  refine ⟨⟨fun x => ?_, fun b => ?_⟩, h.reply, h.ileft, h.suffixleft, h.suffixes⟩
  · simp [itemGap, recordedItems, MultiGet.breakOff, takeSuffix, h.reply]
  · simp only [suffixGap, recordedSuffixes, MultiGet.breakOff, takeSuffix, h.reply, if_true]
    ring

theorem Running.record (h : Running returnCas s) (env : TurnEnv) (it : ℕ) {suffix : Option ℕ}
    (some_ : suffix.isSome = returnCas) :
    Loses s ((s.takeSuffix suffix).record returnCas env it suffix)
        (if env.update = .kept then [] else [recordedItem it env.update]) [] ∧
      Running returnCas ((s.takeSuffix suffix).record returnCas env it suffix) := by
  refine ⟨⟨fun x => ?_, fun b => ?_⟩, h.reply, h.ileft, h.suffixleft, ?_⟩
  · simp only [itemGap, recordedItems, MultiGet.record, takeSuffix, h.reply, if_true,
      List.count_append]
    split_ifs with kept
    · simp [kept, recordedItem]
    · simp
      ring
  · simp only [suffixGap, recordedSuffixes, MultiGet.record, takeSuffix, h.reply, if_true,
      List.count_append, List.count_nil]
    push_cast
    ring
  · simp only [MultiGet.record, takeSuffix, List.length_append, h.suffixes]
    cases suffix with
    | none =>
      obtain rfl : false = returnCas := some_
      rfl
    | some b =>
      obtain rfl : true = returnCas := some_
      simp

theorem Running.hit (h : Running returnCas s) (moved : s.hit returnCas env it = some s') :
    Turned returnCas s s' (itemLoss env it (s.hitEnd returnCas env it))
      (s.suffixLoss (s.hitEnd returnCas env it)) := by
  obtain ⟨grows, grown, same⟩ := h.grow env
  rw [MultiGet.hit] at moved
  cases ended : s.hitEnd returnCas env it with
  | noSuffix =>
    rw [ended] at moved
    obtain rfl := Option.some.inj moved
    refine ⟨?_, fun none => nomatch none⟩
    have fails := grown.fail .noMemorySuffix
    rw [same] at fails
    exact grows.before fails
  | noGrowth =>
    rw [ended] at moved
    exact (grown.outer moved).after grows
  | broken suffix =>
    rw [ended] at moved
    obtain ⟨breaks, broken⟩ := grown.breakOff env it suffix
    exact (broken.outer moved).after (grows.before breaks)
  | recorded suffix =>
    rw [ended] at moved
    obtain ⟨records, recorded⟩ := grown.record env it (isSome_suffix ended)
    exact (recorded.advance moved).after (grows.before records)

theorem Running.turn (h : Running returnCas s) (moved : s.turn returnCas env = some s') :
    Turned returnCas s s' (s.loss returnCas env).1 (s.loss returnCas env).2 := by
  rw [MultiGet.turn] at moved
  rw [loss]
  split at moved
  · cases moved
  · next t rest token =>
    split_ifs at moved ⊢ with long
    · obtain rfl := Option.some.inj moved
      exact ⟨h.fail _, fun none => nomatch none⟩
    · have look : Running returnCas (s.look t) := ⟨h.reply, h.ileft, h.suffixleft, h.suffixes⟩
      have same : Loses s (s.look t) [] [] := .of_eq rfl rfl rfl rfl rfl rfl rfl
      cases found : env.item with
      | none =>
        rw [found] at moved
        exact (look.advance moved).after same
      | some it =>
        rw [found] at moved
        obtain ⟨loses, running⟩ := look.hit moved
        exact ⟨same.before loses, running⟩

def TidyStep (returnCas : Bool) (s : MultiGet) (env : TurnEnv) (s' : MultiGet) : Prop :=
  Step returnCas s env s' ∧ s.loss returnCas env = ([], [])

theorem gaps_mono {envs : List TurnEnv} (run : Run (Step returnCas) s envs s')
    (h : s.reply = none → Running returnCas s) :
    (∀ x, s'.itemGap x ≤ s.itemGap x) ∧ ∀ b, s.suffixGap b ≤ s'.suffixGap b := by
  induction run with
  | nil => exact ⟨fun _ => le_refl _, fun _ => le_refl _⟩
  | cons step _ ih =>
    obtain ⟨loses, running⟩ := (h step.1).turn step.2
    obtain ⟨items, suffixes⟩ := ih running
    refine ⟨fun x => (items x).trans ?_, fun b => le_trans ?_ (suffixes b)⟩
    · rw [loses.items]
      omega
    · rw [loses.suffixes]
      omega

theorem eq_nil_of_count {l : List ℕ} (none : ∀ x, l.count x = 0) : l = [] :=
  List.eq_nil_iff_forall_not_mem.2 fun x => List.count_eq_zero.1 (none x)

theorem owned_iff_tidy {envs : List TurnEnv} (run : Run (Step returnCas) s envs s')
    (h : s.reply = none → Running returnCas s) (owned : s.Owned) :
    s'.Owned ↔ Run (TidyStep returnCas) s envs s' := by
  induction run with
  | nil => exact ⟨fun _ => .nil _, fun _ => owned⟩
  | @cons s t s' env envs step rest ih =>
    obtain ⟨loses, running⟩ := (h step.1).turn step.2
    have kept (none : s.loss returnCas env = ([], [])) : t.Owned := by
      refine ⟨fun x => ?_, fun b => ?_⟩
      · rw [loses.items, owned.1, none]
        rfl
      · rw [loses.suffixes, owned.2, none]
        rfl
    constructor
    · intro owned'
      obtain ⟨items, suffixes⟩ := gaps_mono rest running
      have noItems : (s.loss returnCas env).1 = [] := eq_nil_of_count fun x => by
        have := items x
        rw [loses.items, owned.1, owned'.1] at this
        omega
      have noSuffixes : (s.loss returnCas env).2 = [] := eq_nil_of_count fun b => by
        have := suffixes b
        rw [loses.suffixes, owned.2, owned'.2] at this
        omega
      have none : s.loss returnCas env = ([], []) := Prod.ext noItems noSuffixes
      exact .cons ⟨step, none⟩ ((ih running (kept none)).1 owned')
    · intro tidy
      cases tidy with
      | cons first tidy =>
        obtain ⟨⟨-, moved⟩, none⟩ := first
        obtain rfl := Option.some.inj (moved.symm.trans step.2)
        exact (ih running (kept none)).2 tidy

/-- Whenever the command is looked at, and so on its return, every item reference and every suffix
buffer that it has obtained is recorded once or has been released, exactly if none of its turns was
one of these: after hits of `gets`, an over-long key or a suffix buffer that could not be allocated;
in `gets`, a piece of the response that could not be added; an item that `item_update` replaces or
would replace. -/
theorem multi_get_owns (buf : List UInt8) (tokens : List Token) (isize suffixsize : ℕ)
    {envs : List TurnEnv} (run : Run (Step returnCas) (start buf tokens isize suffixsize) envs s) :
    s.Owned ↔ Run (TidyStep returnCas) (start buf tokens isize suffixsize) envs s := by
  refine owned_iff_tidy run (fun _ => ⟨rfl, rfl, rfl, ?_⟩) ⟨fun _ => rfl, fun _ => rfl⟩
  cases returnCas <;> rfl

/-- A turn that finds the item `it`, with enough memory. -/
def plentiful (it : ℕ) : TurnEnv where
  item := some it
  growItems := true
  growSuffixes := true
  suffix := some it
  addIov _ := .added
  update := .kept
  addEnd := true

theorem multi_get_owns_one : ∃ buf tokens s,
    tokenize ("gets a".toUTF8.toList ++ [0]) 0 maxTokens = some (buf, tokens) ∧
      Run (Step true) (start buf tokens 200 20) [plentiful 9] s ∧ s.reply = some .values ∧
      (s.Owned ↔ Run (TidyStep true) (start buf tokens 200 20) [plentiful 9] s) := by
  obtain ⟨⟨buf, tokens⟩, tokenized⟩ : ∃ p,
      tokenize ("gets a".toUTF8.toList ++ [0]) 0 maxTokens = some p :=
    Option.isSome_iff_exists.1 (by decide +kernel)
  have replied : (tokenize ("gets a".toUTF8.toList ++ [0]) 0 maxTokens).bind (fun p =>
      ((start p.1 p.2 200 20).turn true (plentiful 9)).bind fun s => s.reply) = some .values := by
    decide +kernel
  rw [tokenized, Option.bind_some] at replied
  obtain ⟨s, moved, replied⟩ := Option.bind_eq_some_iff.1 replied
  have run : Run (Step true) (start buf tokens 200 20) [plentiful 9] s := .one ⟨rfl, moved⟩
  exact ⟨buf, tokens, s, tokenized, run, replied, multi_get_owns buf tokens 200 20 run⟩

/-- `gets` with a hit and then an over-long key: the suffix buffer of the hit is not recorded. -/
theorem suffix_lost_with_long_key : ∃ buf tokens s,
    tokenize ("gets a ".toUTF8.toList ++ List.replicate 251 120 ++ [0]) 0 maxTokens =
        some (buf, tokens) ∧
      Run (Step true) (start buf tokens 200 20) [plentiful 9, plentiful 9] s ∧
      s.reply = some .badFormat ∧ s.suffixes 9 = 1 ∧ s.recordedSuffixes = [] ∧ ¬s.Owned := by
  obtain ⟨⟨buf, tokens⟩, tokenized⟩ : ∃ p,
      tokenize ("gets a ".toUTF8.toList ++ List.replicate 251 120 ++ [0]) 0 maxTokens = some p :=
    Option.isSome_iff_exists.1 (by decide +kernel)
  have ended : (tokenize ("gets a ".toUTF8.toList ++ List.replicate 251 120 ++ [0]) 0 maxTokens).bind
      (fun p => ((start p.1 p.2 200 20).turn true (plentiful 9)).bind fun s =>
        (s.turn true (plentiful 9)).map fun s' =>
          (s.reply, s'.reply, s'.suffixes 9, s'.recordedSuffixes)) =
      some (none, some .badFormat, 1, []) := by
    decide +kernel
  rw [tokenized, Option.bind_some] at ended
  obtain ⟨s, first, ended⟩ := Option.bind_eq_some_iff.1 ended
  obtain ⟨s', second, ended⟩ := Option.map_eq_some_iff.1 ended
  obtain ⟨running, reply, suffixes, recorded⟩ : s.reply = none ∧ s'.reply = some .badFormat ∧
      s'.suffixes 9 = 1 ∧ s'.recordedSuffixes = [] := by simpa using ended
  refine ⟨buf, tokens, s', tokenized, .cons ⟨rfl, first⟩ (.one ⟨running, second⟩), reply, suffixes,
    recorded, fun owned => ?_⟩
  have gap := owned.2 9
  rw [suffixGap, suffixes, recorded] at gap
  cases gap

end MultiGet

end LogMemcached
