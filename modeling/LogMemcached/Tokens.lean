import LogMemcached.Network

/-!
# Tokens of a command line

`tokenize_command` walks over a NUL-terminated line in the read buffer, puts a NUL behind each word
it has found, and stops when the token array is full.  `process_get_command` goes on where it
stopped.  Together the rounds give every word of the line.
-/

namespace LogMemcached

/-! ## The scan -/

/-- `token_t`, with the pointer as an index of the buffer. -/
structure Token where
  value : Option ℕ
  length : ℕ
deriving DecidableEq, Repr

def Token.text (buf : List UInt8) (t : Token) : List UInt8 :=
  match t.value with
  | none => []
  | some v => (buf.drop v).take t.length

/-- `strlen`. -/
def strlen (buf : List UInt8) (a : ℕ) : ℕ := ((buf.drop a).takeWhile (· != 0)).length

/-- The variables of `tokenize_command`; `tokens` are the entries of the array filled so far. -/
structure TokenScan where
  buf : List UInt8
  s : ℕ
  e : ℕ
  tokens : List Token
deriving DecidableEq, Repr

namespace TokenScan

/-- Add the token from `s` to `e`. -/
def push (st : TokenScan) : TokenScan :=
  { st with tokens := st.tokens ++ [⟨some st.s, st.e - st.s⟩] }

def cut (st : TokenScan) : TokenScan :=
  { st.push with buf := st.buf.set st.e 0 }

/-- Continue behind the character at `e`; after a space no token has begun. -/
def next (st : TokenScan) (space : Bool) : TokenScan :=
  { st with s := if space then st.e + 1 else st.s, e := st.e + 1 }

/-- The loop of `tokenize_command`, whose counter is an `unsigned int`; `none` when it is still
running after `fuel` turns. -/
def scan (maxTokens len fuel i : ℕ) (st : TokenScan) : Option TokenScan :=
  if i < len then
    match fuel with
    | 0 => none
    | fuel + 1 =>
        if st.buf.getD st.e 0 = 32 then
          if st.s ≠ st.e then
            if st.cut.tokens.length = maxTokens - 1 then some (st.cut.next true)
            else scan maxTokens len fuel ((i + 1) % 2 ^ 32) (st.cut.next true)
          else scan maxTokens len fuel ((i + 1) % 2 ^ 32) (st.next true)
        else scan maxTokens len fuel ((i + 1) % 2 ^ 32) (st.next false)
  else some st

/-- The token array: the last word if one has begun, and the terminal token. -/
def finish (st : TokenScan) : List Token :=
  (if st.s ≠ st.e then st.push else st).tokens ++
    [⟨if st.buf.getD st.e 0 = 0 then none else some st.e, 0⟩]

end TokenScan

/-- `tokenize_command`: the buffer and the token array. -/
def tokenize (buf : List UInt8) (command maxTokens : ℕ) : Option (List UInt8 × List Token) :=
  let len := strlen buf command
  (TokenScan.scan maxTokens len len 0 ⟨buf, command, command, []⟩).map
    fun st => (st.buf, st.finish)

/-- `MAX_TOKENS`. -/
def maxTokens : ℕ := 8

/-- The loops of `process_get_command` over the tokens from `key_token` on: the keys of a batch,
then the next batch from where the last one ended.  `none` when the outer loop is still running
after `fuel` turns. -/
def keyRounds (maxTokens : ℕ) : ℕ → List UInt8 → List Token → Option (List (List UInt8))
  | 0, _, _ => none
  | fuel + 1, buf, tokens =>
      let keys := (tokens.takeWhile (·.length != 0)).map (Token.text buf)
      match (tokens.dropWhile (·.length != 0)).head?.bind Token.value with
      | none => some keys
      | some v => do
          let (buf, tokens) ← tokenize buf v maxTokens
          if (tokens.head?.bind Token.value).isNone then some keys
          else
            let more ← keyRounds maxTokens fuel buf tokens
            some (keys ++ more)

/-! ## Words -/

/-- The words of a line: its maximal runs of characters other than spaces. -/
def words (line : List UInt8) : List (List UInt8) := (line.splitOn 32).filter (· ≠ [])

section Words

variable {w rest : List UInt8}

theorem words_single (plain : 32 ∉ w) : words w = if w = [] then [] else [w] := by
  rw [words, List.splitOn_eq_singleton plain]
  by_cases empty : w = []
  · simp [empty]
  · simp [empty]

theorem words_append (plain : 32 ∉ w) :
    words (w ++ 32 :: rest) = (if w = [] then [] else [w]) ++ words rest := by
  rw [words, List.splitOn_append_cons_self_of_not_mem plain, List.filter_cons]
  by_cases empty : w = []
  · simp [empty, words]
  · simp [empty, words]

end Words

/-! ## Command lines in the read buffer -/

/-- A NUL-terminated line somewhere in the read buffer, whose size `rsize` is an `int`. -/
structure CommandLine where
  before : List UInt8
  text : List UInt8
  after : List UInt8
  noNul : 0 ∉ text
  sized : (before ++ text ++ 0 :: after).length < 2 ^ 31

namespace CommandLine

variable (line : CommandLine)

def buf : List UInt8 := line.before ++ line.text ++ 0 :: line.after

def command : ℕ := line.before.length

/-- The variables of `tokenize_command` when its loop over the line ends. -/
def scan (maxTokens : ℕ) : Option TokenScan :=
  TokenScan.scan maxTokens line.text.length line.text.length 0
    ⟨line.buf, line.command, line.command, []⟩

theorem bne_nul : ∀ c ∈ line.text, (c != 0) = true := by
  intro c mem
  simpa using fun zero : c = 0 => line.noNul (zero ▸ mem)

theorem strlen_buf : strlen line.buf line.command = line.text.length := by
  have start : line.buf.drop line.command = line.text ++ 0 :: line.after := by
    simp [buf, command]
  rw [strlen, start, List.takeWhile_append_of_pos line.bne_nul]
  simp

end CommandLine

/-! ## One round -/

theorem Token.text_set {buf : List UInt8} {t : Token} {e v : ℕ} (value : t.value = some v)
    (below : v + t.length ≤ e) : t.text (buf.set e 0) = t.text buf := by
  simp only [Token.text, value]
  rw [List.drop_set, if_neg (by omega), List.take_set_of_le (by omega)]

def Token.Held (t : Token) : Prop := t.length ≠ 0 ∧ t.value.isSome

/-- The state of the scan inside a line: `word` has been read since the last space, `rest` is
still to come, and the tokens are the words before. -/
structure Scanning (line : CommandLine) (st : TokenScan) (word rest : List UInt8) : Prop where
  buf : ∃ before, before.length = st.s ∧ st.buf = before ++ word ++ rest ++ 0 :: line.after
  scanned : st.e = st.s + word.length
  left : st.e + rest.length = line.command + line.text.length
  suffix : rest <:+ line.text
  plain : 32 ∉ word
  texts : words line.text = st.tokens.map (Token.text st.buf) ++ words (word ++ rest)
  behind : ∀ t ∈ st.tokens, t.length ≠ 0 ∧ ∃ v, t.value = some v ∧ v + t.length ≤ st.s

namespace Scanning

variable {line : CommandLine} {st : TokenScan} {word rest : List UInt8} {c : UInt8}

theorem init (line : CommandLine) :
    Scanning line ⟨line.buf, line.command, line.command, []⟩ [] line.text where
  buf := ⟨line.before, rfl, by simp [CommandLine.buf]⟩
  scanned := rfl
  left := rfl
  suffix := List.suffix_rfl
  plain := List.not_mem_nil
  texts := rfl
  behind := by simp

theorem getD_e (h : Scanning line st word rest) :
    st.buf.getD st.e 0 = (rest ++ [0]).headD 0 := by
  obtain ⟨before, start, content⟩ := h.buf
  have position : st.e = (before ++ word).length := by
    rw [h.scanned, List.length_append, start]
  rw [content, position, List.append_assoc (before ++ word)]
  cases rest with
  | nil => simp [List.getD_eq_getElem?_getD]
  | cons c rest => simp [List.getD_eq_getElem?_getD]

theorem noNul (h : Scanning line st word rest) : 0 ∉ rest :=
  fun mem => line.noNul (h.suffix.subset mem)

theorem extend (h : Scanning line st word (c :: rest)) (other : c ≠ 32) :
    Scanning line (st.next false) (word ++ [c]) rest where
  buf := by
    obtain ⟨before, start, content⟩ := h.buf
    exact ⟨before, start, by simp [TokenScan.next, content]⟩
  scanned := by simp [TokenScan.next, h.scanned, Nat.add_assoc]
  left := by
    have left := h.left
    simp only [TokenScan.next, List.length_cons] at left ⊢
    omega
  suffix := (List.suffix_cons c rest).trans h.suffix
  plain := by simpa [h.plain] using Ne.symm other
  texts := by simpa [TokenScan.next] using h.texts
  behind := h.behind

theorem skip (h : Scanning line st [] (32 :: rest)) : Scanning line (st.next true) [] rest where
  buf := by
    obtain ⟨before, start, content⟩ := h.buf
    refine ⟨before ++ [32], ?_, by simp [TokenScan.next, content]⟩
    simp [TokenScan.next, start, h.scanned]
  scanned := by simp [TokenScan.next]
  left := by
    have left := h.left
    simp only [TokenScan.next, List.length_cons] at left ⊢
    omega
  suffix := (List.suffix_cons 32 rest).trans h.suffix
  plain := List.not_mem_nil
  texts := by
    rw [h.texts, words_append List.not_mem_nil]
    simp [TokenScan.next]
  behind := by
    intro t mem
    obtain ⟨nonempty, v, value, below⟩ := h.behind t mem
    refine ⟨nonempty, v, value, below.trans ?_⟩
    simp [TokenScan.next, h.scanned]

theorem text_word (h : Scanning line st word rest) :
    Token.text st.buf ⟨some st.s, st.e - st.s⟩ = word := by
  obtain ⟨before, start, content⟩ := h.buf
  have length : st.e - st.s = word.length := by
    rw [h.scanned, Nat.add_sub_cancel_left]
  rw [length, content, ← start]
  simp [Token.text]

theorem cut (h : Scanning line st word (32 :: rest)) (begun : word ≠ []) :
    Scanning line (st.cut.next true) [] rest where
  buf := by
    obtain ⟨before, start, content⟩ := h.buf
    have position : st.e = (before ++ word).length := by
      rw [h.scanned, List.length_append, start]
    refine ⟨before ++ word ++ [0], ?_, ?_⟩
    · simp [TokenScan.next, TokenScan.cut, TokenScan.push, position, Nat.add_assoc]
    · simp only [TokenScan.next, TokenScan.cut, TokenScan.push]
      rw [content, position, List.append_assoc (before ++ word),
        List.set_append_right _ _ (Nat.le_refl _)]
      simp
  scanned := by simp [TokenScan.next]
  left := by
    have left := h.left
    simp only [TokenScan.next, TokenScan.cut, TokenScan.push, List.length_cons] at left ⊢
    omega
  suffix := (List.suffix_cons 32 rest).trans h.suffix
  plain := List.not_mem_nil
  texts := by
    have kept : ∀ t ∈ st.tokens, Token.text (st.buf.set st.e 0) t = Token.text st.buf t := by
      intro t mem
      obtain ⟨-, v, value, below⟩ := h.behind t mem
      exact Token.text_set value (below.trans (h.scanned ▸ Nat.le_add_right _ _))
    have last : Token.text (st.buf.set st.e 0) ⟨some st.s, st.e - st.s⟩ = word := by
      rw [Token.text_set rfl (by have := h.scanned; dsimp only; omega), h.text_word]
    rw [h.texts, words_append h.plain, if_neg begun]
    simp [TokenScan.next, TokenScan.cut, TokenScan.push, last, List.map_congr_left kept]
  behind := by
    intro t mem
    have begins : st.s < st.e := by
      have := h.scanned
      have := List.length_pos_of_ne_nil begun
      omega
    simp only [TokenScan.next, TokenScan.cut, TokenScan.push, List.mem_append,
      List.mem_singleton, if_true] at mem ⊢
    rcases mem with earlier | rfl
    · obtain ⟨nonempty, v, value, below⟩ := h.behind t earlier
      exact ⟨nonempty, v, value, by omega⟩
    · exact ⟨by dsimp only; omega, st.s, rfl, by dsimp only; omega⟩

/-- The loop ends at the end of the line with room for a token, or behind the space that filled the
array. -/
theorem scan (h : Scanning line st word rest) {max fuel i : ℕ}
    (room : st.tokens.length < max - 1) (counted : i + rest.length = line.text.length)
    (enough : rest.length ≤ fuel) :
    ∃ st' word' rest', TokenScan.scan max line.text.length fuel i st = some st' ∧
      Scanning line st' word' rest' ∧
      (rest' = [] ∧ st'.tokens.length < max - 1 ∨ word' = [] ∧ st'.tokens.length = max - 1) := by
  -- The counter does not wrap: the line is shorter than the buffer.
  have short : line.text.length < 2 ^ 31 := by
    have sized := line.sized
    simp only [List.length_append] at sized
    omega
  induction rest generalizing st word fuel i with
  | nil =>
    refine ⟨st, word, [], ?_, h, .inl ⟨rfl, room⟩⟩
    rw [TokenScan.scan.eq_def, if_neg (by simpa using Nat.le_of_eq counted.symm)]
  | cons c rest ih =>
    obtain ⟨fuel, rfl⟩ : ∃ k, fuel = k + 1 :=
      ⟨fuel - 1, by rw [List.length_cons] at enough; omega⟩
    rw [List.length_cons] at counted enough
    have turn : (i + 1) % 2 ^ 32 = i + 1 := Nat.mod_eq_of_lt (by omega)
    have char : st.buf.getD st.e 0 = c := h.getD_e
    have enough' : rest.length ≤ fuel := by omega
    have counted' : i + 1 + rest.length = line.text.length := by omega
    rw [TokenScan.scan, if_pos (by omega), char]
    simp only [turn]
    by_cases space : c = 32
    · subst space
      rw [if_pos rfl]
      by_cases begun : word = []
      · subst begun
        rw [if_neg (by simp [h.scanned])]
        exact ih h.skip room counted' enough'
      · have apart : st.s ≠ st.e := by
          have := h.scanned
          have := List.length_pos_of_ne_nil begun
          omega
        have added : st.cut.tokens.length = st.tokens.length + 1 := by
          simp [TokenScan.cut, TokenScan.push]
        rw [if_pos apart]
        by_cases full : st.cut.tokens.length = max - 1
        · rw [if_pos full]
          exact ⟨_, [], rest, rfl, h.cut begun, .inr ⟨rfl, full⟩⟩
        · rw [if_neg full]
          refine ih (h.cut begun) ?_ counted' enough'
          simp only [TokenScan.next]
          omega
    · rw [if_neg space]
      exact ih (h.extend space) room counted' enough'

theorem held (h : Scanning line st word rest) : ∀ t ∈ st.tokens, t.Held := by
  intro t mem
  obtain ⟨nonempty, v, value, -⟩ := h.behind t mem
  exact ⟨nonempty, by simp [value]⟩

theorem finish (h : Scanning line st word rest) (ended : rest = [] ∨ word = []) :
    ∃ tokens, st.finish = tokens ++ [⟨if rest = [] then none else some st.e, 0⟩] ∧
      tokens.length = st.tokens.length + (if word = [] then 0 else 1) ∧
      words line.text = tokens.map (Token.text st.buf) ++ words rest ∧
      ∀ t ∈ tokens, t.Held := by
  have terminal : (if st.buf.getD st.e 0 = 0 then none else some st.e) =
      if rest = [] then none else some st.e := by
    rw [h.getD_e]
    cases rest with
    | nil => rfl
    | cons c rest =>
      have char : c ≠ 0 := fun zero => h.noNul (zero ▸ List.mem_cons_self)
      simp [char]
  have scanned := h.scanned
  by_cases begun : word = []
  · subst begun
    refine ⟨st.tokens, ?_, rfl, h.texts, h.held⟩
    rw [TokenScan.finish, terminal, if_neg (by simp [scanned])]
  · obtain rfl : rest = [] := ended.resolve_right begun
    have positive := List.length_pos_of_ne_nil begun
    refine ⟨st.tokens ++ [⟨some st.s, st.e - st.s⟩], ?_, ?_, ?_, ?_⟩
    · rw [TokenScan.finish, terminal, if_pos (by omega)]
      rfl
    · simp [begun]
    · rw [h.texts, List.append_nil, words_single h.plain, if_neg begun]
      simp [h.text_word, words]
    · intro t mem
      rcases List.mem_append.1 mem with earlier | last
      · exact h.held t earlier
      · rw [List.mem_singleton.1 last]
        exact ⟨by dsimp only; omega, rfl⟩

end Scanning

/-- What one call of `tokenize_command` leaves: the tokens are the words before `rest`, and the
terminal token stands at `rest` unless that is empty. -/
structure TokenRound (line : CommandLine) (maxTokens : ℕ) (buf : List UInt8) (tokens : List Token)
    (rest : CommandLine) : Prop where
  buf_eq : rest.buf = buf
  suffix : rest.text <:+ line.text
  left : rest.command + rest.text.length = line.command + line.text.length
  texts : words line.text = tokens.map (Token.text buf) ++ words rest.text
  held : ∀ t ∈ tokens, t.Held
  fits : tokens.length ≤ maxTokens - 1
  full : rest.text ≠ [] → tokens.length = maxTokens - 1

def CommandLine.terminal (rest : CommandLine) : Token :=
  ⟨if rest.text = [] then none else some rest.command, 0⟩

theorem Scanning.rest_of_buf {line : CommandLine} {st : TokenScan} {word rest : List UInt8}
    (h : Scanning line st word rest) :
    ∃ left : CommandLine, left.buf = st.buf ∧ left.command = st.e ∧ left.text = rest := by
  obtain ⟨before, start, content⟩ := h.buf
  have length : st.buf.length = line.buf.length := by
    have position : before.length + word.length + rest.length =
        line.before.length + line.text.length := by
      have left := h.left
      rw [h.scanned, ← start] at left
      exact left
    simp only [content, CommandLine.buf, List.length_append]
    omega
  refine ⟨⟨before ++ word, rest, line.after, h.noNul, ?_⟩, ?_, ?_, rfl⟩
  · rw [← content, length, CommandLine.buf]
    exact line.sized
  · exact content.symm
  · rw [h.scanned, ← start]
    exact List.length_append

theorem tokenize_round (line : CommandLine) {max : ℕ} (several : 1 < max) :
    ∃ st tokens rest, line.scan max = some st ∧ rest.command = st.e ∧
      tokenize line.buf line.command max = some (st.buf, tokens ++ [rest.terminal]) ∧
      TokenRound line max st.buf tokens rest := by
  obtain ⟨st, word, rest, ran, scanning, ended⟩ :=
    (Scanning.init line).scan (by simpa using Nat.sub_pos_of_lt several : 0 < max - 1)
      (Nat.zero_add _) (Nat.le_refl line.text.length)
  have stops : rest = [] ∨ word = [] := ended.imp And.left And.left
  obtain ⟨tokens, finished, count, texts, held⟩ := scanning.finish stops
  obtain ⟨left, buf, command, text⟩ := scanning.rest_of_buf
  refine ⟨st, tokens, left, ran, command, ?_, ⟨buf, ?_, ?_, ?_, held, ?_, ?_⟩⟩
  · simp [tokenize, line.strlen_buf, ran, finished, CommandLine.terminal, text, command]
  · exact text ▸ scanning.suffix
  · rw [command, text]
    exact scanning.left
  · rw [text]
    exact texts
  · rcases ended with ⟨-, few⟩ | ⟨empty, full⟩
    · rw [count]
      split <;> omega
    · simp [count, empty, full]
  · intro more
    rcases ended with ⟨empty, -⟩ | ⟨empty, full⟩
    · exact absurd (text.trans empty) more
    · simp [count, empty, full]

/-! ## The rounds -/

namespace TokenRound

variable {line rest : CommandLine} {buf : List UInt8} {tokens : List Token} {max : ℕ}

theorem ended_of_nil (h : TokenRound line max buf [] rest) (several : 1 < max) :
    rest.text = [] := by
  by_contra more
  have full := h.full more
  rw [List.length_nil] at full
  omega

theorem length_le (h : TokenRound line max buf tokens rest) :
    rest.text.length ≤ line.text.length :=
  h.suffix.length_le

theorem length_lt (h : TokenRound line max buf tokens rest) (several : 1 < max)
    (more : rest.text ≠ []) : rest.text.length < line.text.length := by
  refine lt_of_le_of_ne h.length_le fun same => ?_
  have texts := h.texts
  rw [h.suffix.eq_of_length same] at texts
  have none : tokens.map (Token.text buf) = [] := List.self_eq_append_left.1 texts
  have full := h.full more
  rw [List.map_eq_nil_iff.1 none] at full
  simp only [List.length_nil] at full
  omega

end TokenRound

section Rounds

variable {max : ℕ} {rest : CommandLine} {batch : List Token}

theorem takeWhile_batch (held : ∀ t ∈ batch, t.Held) :
    (batch ++ [rest.terminal]).takeWhile (·.length != 0) = batch := by
  rw [List.takeWhile_append_of_pos fun t mem => by simpa using (held t mem).1]
  simp [CommandLine.terminal]

theorem dropWhile_batch (held : ∀ t ∈ batch, t.Held) :
    (batch ++ [rest.terminal]).dropWhile (·.length != 0) = [rest.terminal] := by
  rw [List.dropWhile_append_of_pos fun t mem => by simpa using (held t mem).1]
  simp [CommandLine.terminal]

/-- The loops of `process_get_command` go over the tokens of a batch and then over every word
behind it. -/
theorem keyRounds_batch (several : 1 < max) {fuel : ℕ} (held : ∀ t ∈ batch, t.Held)
    (enough : rest.text.length < fuel) :
    keyRounds max fuel rest.buf (batch ++ [rest.terminal]) =
      some (batch.map (Token.text rest.buf) ++ words rest.text) := by
  induction fuel generalizing rest batch with
  | zero => exact absurd enough (Nat.not_lt_zero _)
  | succ fuel ih =>
    simp only [keyRounds, takeWhile_batch held, dropWhile_batch held, List.head?_cons,
      Option.bind_some]
    by_cases ended : rest.text = []
    · simp [CommandLine.terminal, ended, words]
    · obtain ⟨st, tokens, left, -, -, tokenized, round⟩ := tokenize_round rest several
      have value : rest.terminal.value = some rest.command := if_neg ended
      rw [value]
      simp only [tokenized, Option.bind_eq_bind, Option.bind_some]
      cases tokens with
      | nil =>
        -- Only spaces are left behind the last batch.
        have last := round.ended_of_nil several
        have none : words rest.text = [] := by
          rw [round.texts, last]
          rfl
        simp [CommandLine.terminal, last, none]
      | cons t tokens =>
        have begun : t.value.isNone = false := by
          simpa using (round.held t List.mem_cons_self).2
        have shorter : left.text.length < fuel := by
          by_cases more : left.text = []
          · have := List.length_pos_of_ne_nil ended
            simp only [more, List.length_nil]
            omega
          · have := round.length_lt several more
            omega
        have later := ih round.held shorter
        rw [round.buf_eq] at later
        rw [List.cons_append, List.head?_cons, Option.bind_some, begun, if_neg Bool.false_ne_true,
          ← List.cons_append, later, Option.bind_some, round.texts]

end Rounds

theorem TokenRound.take_words {line rest : CommandLine} {max : ℕ} {buf : List UInt8}
    {tokens : List Token} (h : TokenRound line max buf tokens rest) :
    tokens.map (Token.text buf) = (words line.text).take (max - 1) := by
  rw [h.texts]
  by_cases ended : rest.text = []
  · have none : words rest.text = [] := by
      rw [ended]
      rfl
    rw [none, List.append_nil, List.take_of_length_le (by simpa using h.fits)]
  · rw [List.take_left' (by simpa using h.full ended)]

/-- One call of `tokenize_command` gives the first words of the line, at most `max - 1` of them, and
a terminal token that is NULL exactly when the scan has reached the end of the line and otherwise
stands where the scan stopped; the rounds that follow it end and give all the words, or all but the
first when they start at `KEY_TOKEN`. -/
theorem tokenize_rounds (line : CommandLine) (max : ℕ) (several : 1 < max) :
    ∃ st tokens terminal, line.scan max = some st ∧
      tokenize line.buf line.command max = some (st.buf, tokens ++ [terminal]) ∧
      (tokens ++ [terminal]).length ≤ max ∧
      tokens.map (Token.text st.buf) = (words line.text).take (max - 1) ∧
      terminal.length = 0 ∧
      terminal.value = (if st.e = line.command + line.text.length then none else some st.e) ∧
      ∀ fuel, line.text.length < fuel →
        keyRounds max fuel st.buf (tokens ++ [terminal]) = some (words line.text) ∧
        keyRounds max fuel st.buf (tokens ++ [terminal]).tail = some (words line.text).tail := by
  obtain ⟨st, tokens, rest, ran, command, tokenized, round⟩ := tokenize_round line several
  refine ⟨st, tokens, rest.terminal, ran, tokenized, ?_, round.take_words, rfl, ?_, ?_⟩
  · have fits := round.fits
    rw [List.length_append, List.length_singleton]
    omega
  · have left := round.left
    rw [command] at left
    simp only [CommandLine.terminal, command, ← List.length_eq_zero_iff]
    congr 1
    exact propext ⟨fun zero => by omega, fun ends => by omega⟩
  · intro fuel enough
    have remaining : rest.text.length < fuel := Nat.lt_of_le_of_lt round.length_le enough
    have all := keyRounds_batch several round.held remaining
    rw [round.buf_eq] at all
    refine ⟨all.trans (by rw [round.texts]), ?_⟩
    cases tokens with
    | nil =>
      obtain ⟨fuel, rfl⟩ : ∃ k, fuel = k + 1 := ⟨fuel - 1, by omega⟩
      rw [round.texts, round.ended_of_nil several]
      rfl
    | cons t tokens =>
      have keys := keyRounds_batch several
        (fun t mem => round.held t (List.mem_cons_of_mem _ mem)) remaining
      rw [round.buf_eq] at keys
      rw [round.texts]
      exact keys

/-- `gets a  b ` behind a command that was already read. -/
def getsLine : CommandLine where
  before := [0, 10]
  text := [103, 101, 116, 115, 32, 97, 32, 32, 98, 32]
  after := [10]
  noNul := by decide
  sized := by decide

theorem tokenize_rounds_gets :
    ∃ buf tokens, tokenize getsLine.buf getsLine.command 2 = some (buf, tokens) ∧
      keyRounds 2 11 buf tokens = some [[103, 101, 116, 115], [97], [98]] ∧
      keyRounds 2 11 buf tokens.tail = some [[97], [98]] := by
  obtain ⟨st, tokens, terminal, -, tokenized, -, -, -, -, rounds⟩ :=
    tokenize_rounds getsLine 2 (by decide)
  exact ⟨st.buf, tokens ++ [terminal], tokenized, rounds 11 (by decide)⟩

/-- The words the other modules take a line apart into are the tokens of the first round with
`MAX_TOKENS`. -/
theorem tokenizeCommand_text (line : CommandLine) :
    ∃ buf tokens terminal,
      tokenize line.buf line.command maxTokens = some (buf, tokens ++ [terminal]) ∧
      tokens.map (Token.text buf) = tokenizeCommand line.text := by
  obtain ⟨st, tokens, rest, -, -, tokenized, round⟩ :=
    tokenize_round line (by decide : 1 < maxTokens)
  have whole : line.text.takeWhile (· != 0) = line.text :=
    List.takeWhile_eq_self_iff.2 line.bne_nul
  refine ⟨st.buf, tokens, rest.terminal, tokenized, ?_⟩
  rw [round.take_words, tokenizeCommand, whole]
  rfl

end LogMemcached
