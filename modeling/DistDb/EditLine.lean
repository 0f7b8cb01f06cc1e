/-
  DistDb.EditLine — what `main.c` reads of an EDIT command.

  `editLine name content` is the command as it stands in the input.  A name of at most
  `DOC_NAME_LENGTH` bytes and a content of at most `DOC_CONTENT_LENGTH` are read back, with the
  input left behind the command, unless the content is of one of two kinds:
    * `ClosingQuoteMissed` — a content of one line so long that the search for the closing quote,
      which counts from the byte before the opening one, stops too early; what is returned then
      goes beyond the quote,
    * `NewlineLeft` — a content whose last line fills, with its quote, what one `fgets` may read;
      the newline of the command stays in the input and is read as a command of its own.

  Main results:
    * `read_content_lines_of_content` — the loop over the lines, by induction on the newlines of
      the content that is left,
    * `edit_read_back_iff` — a command is read back exactly when it is of neither kind,
    * `read_content_lines_enough_rounds` — the model's bound on the rounds is no restriction.
-/
import DistDb.Input

namespace DistDb.Input

open Lib CharArray

variable {a buffer doc_content r s stream t : List UInt8} {i n rounds : ℕ} {start : ℤ}

@[simp] theorem inBounds_some {α : Type} (x : α) : inBounds (some x) = .ok x := rfl

theorem eq_some_of_inBounds {α : Type} {x : Option α} {y : α} (h : inBounds x = .ok y) :
    x = some y := by
  cases x with
  | none => cases h
  | some x =>
    cases h
    rfl

/-! ## §1. The search for a word. -/

/-- The bytes between two quotes. -/
def IsWord (s : List UInt8) : Prop := quote ∉ s ∧ 0 ∉ s

theorem isWord_nil : IsWord [] := ⟨List.not_mem_nil, List.not_mem_nil⟩

theorem isWord_cons {b : UInt8} : IsWord (b :: s) ↔ (b ≠ quote ∧ b ≠ 0) ∧ IsWord s := by
  unfold IsWord
  rw [List.mem_cons, List.mem_cons, not_or, not_or, eq_comm, and_and_and_comm, @eq_comm _ 0]

theorem isWord_append : IsWord (s ++ t) ↔ IsWord s ∧ IsWord t := by
  unfold IsWord
  rw [List.mem_append, List.mem_append, not_or, not_or, and_and_and_comm]

/-- The bytes of a word are passed over. -/
theorem read_quoted_string_loop_append (hs : IsWord s) (hn : s.length ≤ n) (t : List UInt8) :
    read_quoted_string_loop start i n (s ++ t) =
      read_quoted_string_loop start (i + s.length) (n - s.length) t := by
  -- a byte of the word takes a round and moves the index, and the start stays
  induction s generalizing i n with
  | nil => rfl
  | cons b s ih =>
    obtain ⟨⟨hquote, hnul⟩, hs⟩ := isWord_cons.mp hs
    rw [List.length_cons] at hn ⊢
    obtain ⟨n, rfl⟩ : ∃ m, n = m + 1 := ⟨n - 1, by omega⟩
    rw [List.cons_append, read_quoted_string_loop, if_neg hnul, if_pos hquote, ih hs (by omega),
      Nat.add_sub_add_right]
    congr 1
    omega

/-- No quote is found when the string ends before one. -/
theorem read_quoted_string_loop_of_nul (hs : IsWord s) (r : List UInt8) :
    read_quoted_string_loop start i n (s ++ 0 :: r) = .ok (start, -1) := by
  induction s generalizing i n with
  | nil =>
    cases n with
    | zero => rfl
    | succ n => exact if_pos rfl
  | cons b s ih =>
    obtain ⟨⟨hquote, hnul⟩, hs⟩ := isWord_cons.mp hs
    cases n with
    | zero => rfl
    | succ n =>
      rw [List.cons_append, read_quoted_string_loop, if_neg hnul, if_pos hquote, ih hs]

/-- No quote is found when the limit comes before one. -/
theorem read_quoted_string_loop_of_limit (hs : IsWord s) (hn : n ≤ s.length) (r : List UInt8) :
    read_quoted_string_loop start i n (s ++ r) = .ok (start, -1) := by
  induction s generalizing i n with
  | nil =>
    obtain rfl : n = 0 := Nat.le_zero.mp hn
    rfl
  | cons b s ih =>
    obtain ⟨⟨hquote, hnul⟩, hs⟩ := isWord_cons.mp hs
    cases n with
    | zero => rfl
    | succ n =>
      rw [List.cons_append, read_quoted_string_loop, if_neg hnul, if_pos hquote,
        ih hs (Nat.le_of_succ_le_succ hn)]

/-- The first quote behind a known start ends the word. -/
theorem read_quoted_string_end (ht : IsWord t) (hstart : start ≠ -1) (hn : t.length < n)
    (r : List UInt8) :
    read_quoted_string_loop start i n (t ++ quote :: r) = .ok (start, i + t.length) := by
  obtain ⟨m, hm⟩ : ∃ m, n - t.length = m + 1 := ⟨n - t.length - 1, by omega⟩
  rw [read_quoted_string_loop_append ht (by omega), hm, read_quoted_string_loop,
    if_neg (by decide), if_neg (not_not_intro rfl), if_neg hstart, Nat.cast_add]
  rfl

/-- The first quote of all is the start of the word. -/
theorem read_quoted_string_start (hs : IsWord s) (hn : s.length < n) (r : List UInt8) :
    read_quoted_string (s ++ quote :: r) n (-1) =
      read_quoted_string_loop s.length (s.length + 1) (n - s.length - 1) r := by
  obtain ⟨m, hm⟩ : ∃ m, n - s.length = m + 1 := ⟨n - s.length - 1, by omega⟩
  rw [read_quoted_string, read_quoted_string_loop_append hs (by omega), hm,
    read_quoted_string_loop, if_neg (by decide), if_neg (not_not_intro rfl), if_pos rfl,
    Nat.zero_add, Nat.add_sub_cancel]

/-! ## §2. The copies. -/

/-- A copy behind the string that is there already. -/
theorem memcpy_padded (hn : s.length + t.length ≤ n) (r : List UInt8) :
    memcpy (padded s n) s.length (t ++ r) t.length = .ok (padded (s ++ t) n) := by
  have hlength : (t ++ r).length = t.length + r.length := List.length_append
  unfold memcpy
  rw [if_neg (by omega), Int.toNat_natCast, List.take_left, write_padded hn]
  rfl

theorem memcpy_calloc (hn : t.length ≤ n) (r : List UInt8) :
    memcpy (calloc n) 0 (t ++ r) t.length = .ok (padded t n) := by
  have hn' : ([] : List UInt8).length + t.length ≤ n := by rwa [List.length_nil, Nat.zero_add]
  exact memcpy_padded hn' r

theorem strlen_line (hs : 0 ∉ s) (r : List UInt8) :
    strlen (s ++ 0 :: r) = some s.length := IsString.strlen ⟨hs, r, rfl⟩

theorem take_line (s r : List UInt8) : (s ++ 0 :: r).take (s.length + 1) = s ++ [0] := by
  rw [List.take_append, List.take_of_length_le (Nat.le_succ _), Nat.add_sub_cancel_left]
  rfl

theorem strcpy_calloc (hs : 0 ∉ s) (hn : s.length < n) (r : List UInt8) :
    strcpy (calloc n) (s ++ 0 :: r) = .ok (padded s n) := by
  unfold strcpy
  rw [strlen_line hs]
  show inBounds (write (calloc n) 0 ((s ++ 0 :: r).take (s.length + 1))) = _
  rw [take_line, calloc, write_zeros hn]
  rfl

/-- A string that does not fit runs over the end. -/
theorem strcpy_calloc_of_le (hs : 0 ∉ s) (hn : n ≤ s.length) (r : List UInt8) :
    strcpy (calloc n) (s ++ 0 :: r) = .error .outOfBounds := by
  have hlength : (s ++ [0]).length = s.length + 1 := List.length_append
  unfold strcpy
  rw [strlen_line hs]
  show inBounds (write (calloc n) 0 ((s ++ 0 :: r).take (s.length + 1))) = _
  rw [take_line, calloc, write_of_lt (by rw [List.length_replicate]; omega)]
  rfl

theorem strncpy_calloc (ht : 0 ∉ t) (hn : t.length ≤ n) (r : List UInt8) :
    strncpy (calloc n) (t ++ r) t.length = .ok (padded t n) := by
  have hlength : (t ++ r).length = t.length + r.length := List.length_append
  have htake : t.takeWhile (· ≠ 0) = t := by
    rw [List.takeWhile_eq_self_iff]
    intro b hb
    exact decide_eq_true (fun h : b = 0 => ht (h ▸ hb))
  have hpadded : padded t t.length = t := by
    rw [padded, Nat.sub_self, List.replicate_zero, List.append_nil]
  unfold strncpy
  rw [if_neg (by omega), Int.toNat_natCast, List.take_left, htake, hpadded]
  show inBounds (write (padded [] n) ([] : List UInt8).length t) = _
  rw [write_padded (by rw [List.length_nil]; omega)]
  rfl

/-! ## §3. A line of the input. -/

/-- `fgets` leaves the line in the buffer, with a NUL behind it. -/
theorem fgets_line (hstream : stream ≠ []) (hbuffer : n < buffer.length) :
    ∃ r, fgets buffer (n + 1) stream =
        .ok (some (line n stream ++ 0 :: r, stream.drop (line n stream).length)) ∧
      (line n stream ++ 0 :: r).length = buffer.length := by
  have hle := length_line_le n stream
  have hlength : (line n stream ++ [0]).length = (line n stream).length + 1 := List.length_append
  have hwrite := write_zero (a := buffer) (show (line n stream ++ [0]).length ≤ _ by omega)
  refine ⟨buffer.drop (line n stream ++ [0]).length, ?_, ?_⟩
  · unfold fgets
    rw [if_neg hstream, Nat.add_sub_cancel]
    show (inBounds (write buffer 0 (line n stream ++ [0])) >>= _) = _
    rw [hwrite, List.append_assoc]
    rfl
  · have h := length_write hwrite
    rw [List.append_assoc] at h
    exact h

/-! ## §4. The loop over the lines. -/

/-- A round that finds no quote appends the whole line. -/
theorem read_content_lines_more (hstream : stream ≠ []) (hs : 0 ∉ s)
    (hline : IsWord (line DOC_CONTENT_LENGTH stream))
    (hfits : s.length + (line DOC_CONTENT_LENGTH stream).length ≤ DOC_CONTENT_LENGTH)
    (hbuffer : DOC_CONTENT_LENGTH < buffer.length) (rounds : ℕ) (start : ℤ) :
    ∃ buffer', buffer'.length = buffer.length ∧
      read_content_lines (rounds + 1) buffer stream start (padded s (DOC_CONTENT_LENGTH + 1)) =
        read_content_lines rounds buffer' (stream.drop (line DOC_CONTENT_LENGTH stream).length)
          start (padded (s ++ line DOC_CONTENT_LENGTH stream) (DOC_CONTENT_LENGTH + 1)) := by
  obtain ⟨r, hfgets, hlength⟩ := fgets_line hstream hbuffer
  have hlen : strlen (padded s (DOC_CONTENT_LENGTH + 1)) = some s.length :=
    (isString_padded hs (by omega)).strlen
  refine ⟨_, hlength, ?_⟩
  rw [read_content_lines, hfgets, ok_bind]
  dsimp only
  rw [read_quoted_string, read_quoted_string_loop_of_nul hline, ok_bind]
  dsimp only
  rw [hlen, inBounds_some, ok_bind, if_pos rfl, strlen_line hline.2, inBounds_some,
    ok_bind, pure_eq_ok, ok_bind, memcpy_padded (by omega), ok_bind, if_pos rfl]

/-- A round that finds the quote appends what stands before it, and is the last one. -/
theorem read_content_lines_last (hs : 0 ∉ s) (ht : IsWord t)
    (hline : line DOC_CONTENT_LENGTH stream = t ++ quote :: r)
    (hfits : s.length + t.length ≤ DOC_CONTENT_LENGTH) (hstart : start ≠ -1)
    (hbuffer : DOC_CONTENT_LENGTH < buffer.length) (rounds : ℕ) :
    ∃ buffer', read_content_lines (rounds + 1) buffer stream start
        (padded s (DOC_CONTENT_LENGTH + 1)) =
      .ok (padded (s ++ t) (DOC_CONTENT_LENGTH + 1), buffer',
        stream.drop (t.length + 1 + r.length)) := by
  have hstream : stream ≠ [] := by
    rintro rfl
    rw [show line DOC_CONTENT_LENGTH [] = [] from rfl] at hline
    exact absurd hline.symm (List.append_ne_nil_of_right_ne_nil t (List.cons_ne_nil _ _))
  obtain ⟨tail, hfgets, -⟩ := fgets_line hstream hbuffer
  have hle := length_line_le DOC_CONTENT_LENGTH stream
  rw [hline, List.append_assoc, List.cons_append] at hfgets
  rw [hline, List.length_append, List.length_cons] at hle
  have hlen : strlen (padded s (DOC_CONTENT_LENGTH + 1)) = some s.length :=
    (isString_padded hs (by omega)).strlen
  refine ⟨t ++ quote :: (r ++ 0 :: tail), ?_⟩
  rw [read_content_lines, hfgets, ok_bind]
  dsimp only
  rw [read_quoted_string, read_quoted_string_end ht hstart (by omega), ok_bind]
  dsimp only
  rw [Nat.cast_zero, Int.zero_add, hlen, inBounds_some, ok_bind, if_neg (by omega),
    pure_eq_ok, ok_bind, memcpy_padded (by omega), ok_bind, if_neg (by omega),
    List.length_append, List.length_cons, Nat.add_right_comm, Nat.add_assoc]
  rfl

/-- The last line: its newline stays in the stream when the line is as long as one `fgets` reads. -/
theorem read_content_lines_last_line (hs : 0 ∉ s) (hne : s ≠ []) (ht : IsWord t)
    (hnewline : newline ∉ t) (hfits : s.length + t.length ≤ DOC_CONTENT_LENGTH)
    (hstart : start ≠ -1) (hbuffer : DOC_CONTENT_LENGTH < buffer.length) (rest : List UInt8)
    (rounds : ℕ) :
    ∃ buffer', read_content_lines (rounds + 1) buffer (t ++ quote :: newline :: rest) start
        (padded s (DOC_CONTENT_LENGTH + 1)) =
      .ok (padded (s ++ t) (DOC_CONTENT_LENGTH + 1), buffer',
        if t.length + 1 = DOC_CONTENT_LENGTH then newline :: rest else rest) := by
  have hpos := List.length_pos_iff.mpr hne
  have hlength : (t ++ [quote]).length = t.length + 1 := List.length_append
  have hclosed : newline ∉ t ++ [quote] := by
    rw [List.mem_append, List.mem_singleton, not_or]
    exact ⟨hnewline, by decide⟩
  have hstream : t ++ quote :: newline :: rest = t ++ [quote] ++ newline :: rest := by
    rw [List.append_assoc, List.singleton_append]
  split_ifs with hlong
  · -- the line and its quote are all that `fgets` may read
    have hline := line_of_long hclosed (hlength.trans hlong) (newline :: rest)
    rw [← hstream] at hline
    have h := read_content_lines_last hs ht hline hfits hstart hbuffer rounds
    rw [hstream, show t.length + 1 + [].length = (t ++ [quote]).length from hlength.symm,
      List.drop_left] at h
    rwa [hstream]
  · -- the newline is read with them
    have hline := line_of_newline hclosed (show _ < DOC_CONTENT_LENGTH by omega) rest
    rw [← hstream, List.append_assoc] at hline
    have h := read_content_lines_last hs ht hline hfits hstart hbuffer rounds
    rw [hstream, ← hlength, ← List.drop_drop, List.drop_left] at h
    rwa [hstream]

/-- Any other line is appended with its newline. -/
theorem read_content_lines_line (hs : 0 ∉ s) (ht : IsWord t) (hnewline : newline ∉ t)
    (hfits : s.length + t.length < DOC_CONTENT_LENGTH)
    (hbuffer : DOC_CONTENT_LENGTH < buffer.length) (r : List UInt8) (rounds : ℕ) (start : ℤ) :
    ∃ buffer', buffer'.length = buffer.length ∧
      read_content_lines (rounds + 1) buffer (t ++ newline :: r) start
          (padded s (DOC_CONTENT_LENGTH + 1)) =
        read_content_lines rounds buffer' r start
          (padded (s ++ t ++ [newline]) (DOC_CONTENT_LENGTH + 1)) := by
  have hlength : (t ++ [newline]).length = t.length + 1 := List.length_append
  have hline := line_of_newline hnewline (show t.length < DOC_CONTENT_LENGTH by omega) r
  have hword : IsWord (t ++ [newline]) :=
    isWord_append.mpr ⟨ht, isWord_cons.mpr ⟨by decide, isWord_nil⟩⟩
  have hstream : t ++ newline :: r ≠ [] :=
    List.append_ne_nil_of_right_ne_nil _ (List.cons_ne_nil _ _)
  obtain ⟨buffer', hbuffer', h⟩ := read_content_lines_more hstream hs (hline ▸ hword)
    (show _ ≤ DOC_CONTENT_LENGTH by rw [hline]; omega) hbuffer rounds start
  rw [hline, List.append_cons t newline r, List.drop_left, ← List.append_assoc] at h
  refine ⟨buffer', hbuffer', ?_⟩
  rw [List.append_cons t newline r, h]

/-- **The loop over the lines** appends what is left of the content, with at least one round for
each of its newlines. -/
theorem read_content_lines_of_content (hs : 0 ∉ s) (hne : s ≠ []) (ht : IsWord t)
    (hfits : s.length + t.length ≤ DOC_CONTENT_LENGTH) (hstart : start ≠ -1)
    (hbuffer : DOC_CONTENT_LENGTH < buffer.length) (hrounds : t.count newline < rounds)
    (rest : List UInt8) :
    ∃ buffer', read_content_lines rounds buffer (t ++ quote :: newline :: rest) start
        (padded s (DOC_CONTENT_LENGTH + 1)) =
      .ok (padded (s ++ t) (DOC_CONTENT_LENGTH + 1), buffer',
        if newline ∉ t ∧ t.length + 1 = DOC_CONTENT_LENGTH then newline :: rest else rest) := by
  -- the content read so far grows by a line in each round
  induction rounds generalizing s t buffer with
  | zero => exact absurd hrounds (Nat.not_lt_zero _)
  | succ rounds ih =>
    by_cases hnewline : newline ∈ t
    · -- a line of the content, which is short because something was read before it
      obtain ⟨l, t', rfl, hl⟩ := List.eq_append_cons_of_mem hnewline
      obtain ⟨hlword, ht'⟩ := isWord_append.mp ht
      obtain ⟨-, ht'⟩ := isWord_cons.mp ht'
      have hpos := List.length_pos_iff.mpr hne
      rw [List.length_append, List.length_cons] at hfits
      obtain ⟨buffer', hbuffer', hfirst⟩ := read_content_lines_line hs hlword hl (by omega) hbuffer
        (t' ++ quote :: newline :: rest) rounds start
      have hs' : 0 ∉ s ++ l ++ [newline] := by
        rw [List.mem_append, List.mem_append, List.mem_singleton, not_or, not_or]
        exact ⟨⟨hs, hlword.2⟩, by decide⟩
      have hfits' : (s ++ l ++ [newline]).length + t'.length ≤ DOC_CONTENT_LENGTH := by
        rw [List.length_append, List.length_append, List.length_singleton]
        omega
      have hcount : t'.count newline < rounds := by
        rw [List.count_append, List.count_cons_self] at hrounds
        omega
      obtain ⟨buffer'', h⟩ := ih hs' (List.append_ne_nil_of_right_ne_nil _ (List.cons_ne_nil _ _))
        ht' hfits' (hbuffer' ▸ hbuffer) hcount
      -- for the same reason the last line is not as long as what `fgets` reads
      have hcontent : s ++ (l ++ newline :: t') = s ++ l ++ [newline] ++ t' := by
        rw [List.append_cons l, List.append_assoc, List.append_assoc, List.append_assoc]
      rw [if_neg (by omega)] at h
      rw [if_neg (fun h => h.1 hnewline), hcontent, List.append_assoc l, List.cons_append, hfirst]
      exact ⟨buffer'', h⟩
    · -- the line with the closing quote
      obtain ⟨buffer', h⟩ :=
        read_content_lines_last_line hs hne ht hnewline hfits hstart hbuffer rest rounds
      refine ⟨buffer', h.trans ?_⟩
      rw [if_congr (and_iff_right hnewline) rfl rfl]

/-! ## §5. Any content. -/

/-- What is copied is written behind what is there. -/
theorem write_of_memcpy {offset : ℕ} {n : ℤ} (h : memcpy a offset r n = .ok t) :
    ∃ bytes, write a offset bytes = some t := by
  unfold memcpy at h
  split_ifs at h
  exact ⟨_, eq_some_of_inBounds h⟩

/-- A round that returns has written behind the string that is there; it is the last one, or the
next one returns. -/
theorem read_content_lines_round {result : List UInt8 × List UInt8 × List UInt8}
    (h : read_content_lines rounds buffer stream start doc_content = .ok result) :
    ∃ rounds' len bytes doc_content', rounds = rounds' + 1 ∧
      strlen doc_content = some len ∧ write doc_content len bytes = some doc_content' ∧
      (result.1 = doc_content' ∨ ∃ buffer' stream' start',
        read_content_lines rounds' buffer' stream' start' doc_content' = .ok result) := by
  unfold read_content_lines at h
  obtain ⟨chunk, -, h⟩ := bind_eq_ok.mp h
  cases chunk with
  | none => cases h
  | some chunk =>
    cases rounds with
    | zero => cases h
    | succ rounds =>
      obtain ⟨⟨start', word_end⟩, -, h⟩ := bind_eq_ok.mp h
      obtain ⟨len, hlen, h⟩ := bind_eq_ok.mp h
      -- the number of the bytes that are copied plays no role
      split_ifs at h
      · obtain ⟨_, -, h⟩ := bind_eq_ok.mp h
        obtain ⟨n, -, h⟩ := bind_eq_ok.mp h
        obtain ⟨doc_content', hmemcpy, h⟩ := bind_eq_ok.mp h
        obtain ⟨bytes, hwrite⟩ := write_of_memcpy hmemcpy
        exact ⟨rounds, len, bytes, doc_content', rfl, eq_some_of_inBounds hlen, hwrite,
          .inr ⟨_, _, _, h⟩⟩
      · obtain ⟨n, -, h⟩ := bind_eq_ok.mp h
        obtain ⟨doc_content', hmemcpy, h⟩ := bind_eq_ok.mp h
        obtain ⟨bytes, hwrite⟩ := write_of_memcpy hmemcpy
        cases h
        exact ⟨rounds, len, bytes, doc_content', rfl, eq_some_of_inBounds hlen, hwrite, .inl rfl⟩

/-- What was read of the content before the loop stays at its start. -/
theorem prefix_of_read_content_lines (hs : 0 ∉ s) (hbegins : s <+: doc_content)
    {result : List UInt8 × List UInt8 × List UInt8}
    (h : read_content_lines rounds buffer stream start doc_content = .ok result) :
    s <+: result.1 := by
  -- a round writes behind the NUL of the content, and so behind `s`
  induction rounds generalizing buffer stream start doc_content with
  | zero =>
    obtain ⟨_, _, _, _, hrounds, -⟩ := read_content_lines_round h
    exact absurd hrounds.symm (Nat.succ_ne_zero _)
  | succ rounds ih =>
    obtain ⟨_, len, bytes, doc_content', hrounds, hlen, hwrite, hrest⟩ := read_content_lines_round h
    cases hrounds
    have hkept : s <+: doc_content' :=
      prefix_write hbegins (length_le_of_strlen hs hbegins hlen) hwrite
    rcases hrest with rfl | ⟨buffer', stream', start', hnext⟩
    · exact hkept
    · exact ih hkept hnext

/-! ## §6. The rounds of the loop. -/

/-- The computation does not stop for want of rounds. -/
def EnoughRounds {α : Type} (x : Read α) : Prop := x ≠ .error .outOfFuel

theorem enoughRounds_bind {α β : Type} {x : Read α} {f : α → Read β} (hx : EnoughRounds x)
    (hf : ∀ y, x = .ok y → EnoughRounds (f y)) : EnoughRounds (x >>= f) := by
  intro h
  rcases bind_eq_error.mp h with h | ⟨y, hy, h⟩
  · exact hx h
  · exact hf y hy h

theorem enoughRounds_pure {α : Type} (y : α) : EnoughRounds (pure y) := fun h => by cases h

theorem enoughRounds_inBounds {α : Type} (y : Option α) : EnoughRounds (inBounds y) := by
  intro h
  cases y <;> cases h

theorem enoughRounds_memcpy (dst src : List UInt8) (offset : ℕ) (n : ℤ) :
    EnoughRounds (memcpy dst offset src n) := by
  unfold memcpy
  split_ifs
  · exact fun h => by cases h
  · exact enoughRounds_inBounds _

theorem enoughRounds_fgets (buffer stream : List UInt8) (n : ℕ) :
    EnoughRounds (fgets buffer n stream) := by
  unfold fgets
  split_ifs
  · exact enoughRounds_pure _
  · exact enoughRounds_bind (enoughRounds_inBounds _) (fun _ _ => enoughRounds_pure _)

theorem enoughRounds_read_quoted_string_loop (start : ℤ) (i n : ℕ) (s : List UInt8) :
    EnoughRounds (read_quoted_string_loop start i n s) := by
  induction n generalizing start i s with
  | zero => exact enoughRounds_pure _
  | succ n ih =>
    cases s with
    | nil => exact fun h => by cases h
    | cons b s =>
      unfold read_quoted_string_loop
      split_ifs
      · exact enoughRounds_pure _
      · exact ih _ _ _
      · exact ih _ _ _
      · exact enoughRounds_pure _

/-- What `fgets` leaves of a stream is shorter. -/
theorem length_lt_of_fgets {buffer' stream' : List UInt8} (hn : 1 < n)
    (h : fgets buffer n stream = .ok (some (buffer', stream'))) :
    stream'.length < stream.length := by
  unfold fgets at h
  split_ifs at h with hstream
  · cases h
  · obtain ⟨_, -, h⟩ := bind_eq_ok.mp h
    cases h
    have hpos := List.length_pos_iff.mpr (line_ne_nil (show 0 < n - 1 by omega) hstream)
    have hstream := List.length_pos_iff.mpr hstream
    rw [List.length_drop]
    omega

/-- **The bound on the rounds is no restriction**: each of them reads some of the stream. -/
theorem read_content_lines_enough_rounds (hrounds : stream.length ≤ rounds) :
    EnoughRounds (read_content_lines rounds buffer stream start doc_content) := by
  -- the rest of the stream is shorter in each round, and at its end the program stops
  induction rounds generalizing buffer stream start doc_content with
  | zero =>
    obtain rfl : stream = [] := List.length_eq_zero_iff.mp (Nat.le_zero.mp hrounds)
    intro h
    rw [read_content_lines, show fgets buffer _ [] = .ok none from if_pos rfl, ok_bind] at h
    cases h
  | succ rounds ih =>
    unfold read_content_lines
    refine enoughRounds_bind (enoughRounds_fgets _ _ _) ?_
    intro chunk hchunk
    cases chunk with
    | none => exact fun h => by cases h
    | some chunk =>
      have hshorter := length_lt_of_fgets (by decide) hchunk
      refine enoughRounds_bind (enoughRounds_read_quoted_string_loop _ _ _ _) ?_
      intro word _
      refine enoughRounds_bind (enoughRounds_inBounds _) ?_
      intro len _
      split_ifs
      · refine enoughRounds_bind (enoughRounds_inBounds _) ?_
        intro _ _
        refine enoughRounds_bind (enoughRounds_pure _) ?_
        intro n _
        refine enoughRounds_bind (enoughRounds_memcpy _ _ _ _) ?_
        intro doc_content' _
        exact ih (by omega)
      · refine enoughRounds_bind (enoughRounds_pure _) ?_
        intro n _
        refine enoughRounds_bind (enoughRounds_memcpy _ _ _ _) ?_
        intro doc_content' _
        exact enoughRounds_pure _

/-! ## §7. The command. -/

/-- `EDIT "name"` -/
def editHead (name : CString) : List UInt8 :=
  EDIT_REQUEST.bytes ++ space :: quote :: (name.bytes ++ [quote])

/-- `EDIT "name" "content"` and the newline behind it. -/
def editLine (name content : CString) : List UInt8 :=
  editHead name ++ space :: quote :: (content.bytes ++ [quote, newline])

variable {name content : CString} {rest : List UInt8}

theorem editHead_eq (name : CString) :
    editHead name = [69, 68, 73, 84, space] ++ quote :: (name.bytes ++ [quote]) := by
  rw [editHead, show EDIT_REQUEST.bytes = [69, 68, 73, 84] by decide +kernel]
  rfl

theorem length_editHead (name : CString) : (editHead name).length = name.length + 7 := by
  simp [editHead_eq, CString.length]

/-- The quote behind the name is the last byte of the head. -/
theorem word_end_editHead (name : CString) :
    (name.length + 6 + 1 : ℤ) = (editHead name).length := by
  rw [length_editHead]
  omega

theorem newline_notMem_editHead (hname : newline ∉ name.bytes) : newline ∉ editHead name := by
  simp only [editHead_eq, List.mem_append, List.mem_cons (a := newline) (b := quote), not_or]
  exact ⟨by decide, by decide, hname, by decide⟩

theorem get_request_type_editHead (name : CString) (r : List UInt8) :
    get_request_type (editHead name ++ r) = .ok .EDIT_DOCUMENT := by
  have hadd : ADD_SERVER_REQUEST.bytes.head? = some 65 := by decide +kernel
  have hremove : REMOVE_SERVER_REQUEST.bytes.head? = some 82 := by decide +kernel
  have hhead : (editHead name ++ r).head? = some 69 := by
    rw [editHead_eq]
    rfl
  -- the other two names that are tried first begin with other letters
  have hother : ∀ {p : List UInt8} {b : UInt8}, p.head? = some b → b ≠ 69 →
      ¬ p.isPrefixOf (editHead name ++ r) = true := by
    intro p b hp hb h
    obtain ⟨r', hr'⟩ := List.isPrefixOf_iff_prefix.mp h
    rw [← hr', List.head?_append, hp] at hhead
    exact hb (Option.some.inj hhead)
  have hedit : EDIT_REQUEST.bytes.isPrefixOf (editHead name ++ r) = true := by
    rw [List.isPrefixOf_iff_prefix, editHead, List.append_assoc]
    exact List.prefix_append _ _
  unfold get_request_type
  rw [if_neg (hother hadd (by decide)), if_neg (hother hremove (by decide)), if_pos hedit]
  rfl

/-- The name is read with the index of the quote behind it. -/
theorem read_doc_name_editHead (hname : IsWord name.bytes) (hlength : name.length ≤ DOC_NAME_LENGTH)
    (r : List UInt8) :
    read_doc_name (editHead name ++ r) =
      .ok (padded name.bytes (DOC_NAME_LENGTH + 1), name.length + 6) := by
  have hbuffer : editHead name ++ r =
      [69, 68, 73, 84, space] ++ quote :: (name.bytes ++ quote :: r) := by
    simp [editHead_eq]
  have hlimit : name.length < REQUEST_LENGTH - 5 - 1 :=
    Nat.lt_of_le_of_lt hlength (by decide)
  have hsearch : read_quoted_string (editHead name ++ r) REQUEST_LENGTH (-1) =
      .ok (5, 6 + name.length) := by
    rw [hbuffer, read_quoted_string_start (by unfold IsWord; decide) (by decide)]
    exact read_quoted_string_end hname (by decide) hlimit r
  have hdrop : (editHead name ++ r).drop 6 = name.bytes ++ quote :: r := by
    rw [hbuffer]
    rfl
  unfold read_doc_name
  rw [hsearch, ok_bind]
  show (memcpy (calloc _) 0 ((editHead name ++ r).drop 6) _ >>= _) = _
  have hcopied : (6 + name.length - 5 - 1 : ℤ) = name.bytes.length := by
    unfold CString.length
    omega
  rw [hdrop, hcopied, memcpy_calloc (Nat.le_succ_of_le hlength), ok_bind, add_comm]
  rfl

/-- The search for the content begins behind the name, at the byte before the opening quote. -/
theorem read_doc_content_search {pre : List UInt8} {word_end : ℤ}
    (hpre : word_end + 1 = pre.length) (r : List UInt8) :
    (pre ++ space :: quote :: r).drop (word_end + 1).toNat = space :: quote :: r ∧
      read_quoted_string (space :: quote :: r) DOC_CONTENT_LENGTH (-1) =
        read_quoted_string_loop 1 2 (DOC_CONTENT_LENGTH - 2) r := by
  constructor
  · rw [hpre, Int.toNat_natCast, List.drop_left]
  · exact read_quoted_string_start (s := [space]) (by unfold IsWord; decide) (by decide) r

/-- A content whose closing quote is found at once. -/
theorem read_doc_content_of_found {pre : List UInt8} {word_end : ℤ}
    (hpre : word_end + 1 = pre.length) (ht : IsWord t) (hfound : t.length + 2 < DOC_CONTENT_LENGTH)
    (r : List UInt8) :
    read_doc_content (pre ++ space :: quote :: (t ++ quote :: r)) stream word_end =
      .ok (padded t (DOC_CONTENT_LENGTH + 1), pre ++ space :: quote :: (t ++ quote :: r),
        stream) := by
  obtain ⟨hdrop, hsearch⟩ := read_doc_content_search hpre (t ++ quote :: r)
  rw [read_quoted_string_end ht (by decide) (by omega)] at hsearch
  unfold read_doc_content
  dsimp only
  rw [hdrop, hsearch, ok_bind]
  dsimp only
  have hcopied : (2 + t.length - 1 - 1 : ℤ) = t.length := by omega
  rw [if_neg (by omega)]
  show (strncpy (calloc _) (t ++ quote :: r) (2 + t.length - 1 - 1) >>= _) = _
  rw [hcopied, strncpy_calloc ht.2 (by omega), ok_bind]
  rfl

/-- A content whose closing quote is not found in the first line: what stands there is copied, and
more is read. -/
theorem read_doc_content_of_missed {pre : List UInt8} {word_end : ℤ}
    (hpre : word_end + 1 = pre.length)
    (hmissed : read_quoted_string_loop 1 2 (DOC_CONTENT_LENGTH - 2) r = .ok (1, -1)) :
    read_doc_content (pre ++ space :: quote :: r) stream word_end = (do
      let doc_content ← strcpy (calloc (DOC_CONTENT_LENGTH + 1)) r
      read_content_lines stream.length (pre ++ space :: quote :: r) stream 1 doc_content) := by
  obtain ⟨hdrop, hsearch⟩ := read_doc_content_search hpre r
  unfold read_doc_content
  dsimp only
  rw [hdrop, hsearch, hmissed, ok_bind]
  rfl

/-- A content of several lines: the first one is copied up to its newline, and the loop reads the
others. -/
theorem read_doc_content_of_lines {pre : List UInt8} {word_end : ℤ}
    (hpre : word_end + 1 = pre.length) (hs : IsWord s) (ht : IsWord t)
    (hfits : s.length + (t.length + 1) ≤ DOC_CONTENT_LENGTH) (r rest : List UInt8)
    (hbuffer : DOC_CONTENT_LENGTH <
      (pre ++ space :: quote :: (s ++ newline :: 0 :: r)).length) :
    ∃ buffer', read_doc_content (pre ++ space :: quote :: (s ++ newline :: 0 :: r))
        (t ++ quote :: newline :: rest) word_end =
      .ok (padded (s ++ newline :: t) (DOC_CONTENT_LENGTH + 1), buffer',
        if newline ∉ t ∧ t.length + 1 = DOC_CONTENT_LENGTH then newline :: rest else rest) := by
  have hfirst : IsWord (s ++ [newline]) :=
    isWord_append.mpr ⟨hs, isWord_cons.mpr ⟨by decide, isWord_nil⟩⟩
  have hlength : (s ++ [newline]).length = s.length + 1 := List.length_append
  have hcount : t.count newline < (t ++ quote :: newline :: rest).length := by
    have hle := List.count_le_length (a := newline) (l := t)
    rw [List.length_append, List.length_cons]
    omega
  rw [List.append_cons s newline (0 :: r)] at hbuffer ⊢
  rw [read_doc_content_of_missed hpre (read_quoted_string_loop_of_nul hfirst r),
    strcpy_calloc hfirst.2 (by omega), ok_bind, List.append_cons s newline t]
  exact read_content_lines_of_content hfirst.2
    (List.append_ne_nil_of_right_ne_nil s (List.cons_ne_nil newline [])) ht (by omega)
    (by decide) hbuffer hcount rest

/-- **What is read of an EDIT**: its first line fits into the buffer. -/
theorem read_request_arguments_edit (hname : IsWord name.bytes)
    (hnewline : newline ∉ name.bytes) (hlength : name.length ≤ DOC_NAME_LENGTH)
    (ht : newline ∉ t) (hfits : t.length ≤ DOC_CONTENT_LENGTH + 1)
    (hbuffer : buffer.length = REQUEST_LENGTH + 1) (after : List UInt8) :
    ∃ buffer' r, buffer' = editHead name ++ space :: quote :: (t ++ newline :: 0 :: r) ∧
      buffer'.length = buffer.length ∧
      read_request_arguments buffer
          (editHead name ++ space :: quote :: (t ++ newline :: after)) = (do
        let (doc_content, buffer, stream) ← read_doc_content buffer' after (name.length + 6)
        pure (.EDIT_DOCUMENT (padded name.bytes (DOC_NAME_LENGTH + 1)) doc_content, buffer,
          stream)) := by
  have hstream : editHead name ++ space :: quote :: (t ++ newline :: after) =
      (editHead name ++ space :: quote :: t) ++ newline :: after := by
    rw [List.append_assoc, List.cons_append, List.cons_append]
  have hhead : newline ∉ editHead name ++ space :: quote :: t := by
    rw [List.mem_append, List.mem_cons, List.mem_cons, not_or, not_or, not_or]
    exact ⟨newline_notMem_editHead hnewline, by decide, by decide, ht⟩
  have hshort : (editHead name ++ space :: quote :: t).length < REQUEST_LENGTH := by
    rw [List.length_append, length_editHead, List.length_cons, List.length_cons]
    unfold REQUEST_LENGTH REQUEST_TYPE_LENGTH
    omega
  have hline := line_of_newline hhead hshort after
  obtain ⟨r, hfgets, hlength'⟩ := fgets_line
    (List.append_ne_nil_of_right_ne_nil (editHead name ++ space :: quote :: t)
      (List.cons_ne_nil newline after)) (show REQUEST_LENGTH < buffer.length by omega)
  have hchunk : (editHead name ++ space :: quote :: t) ++ [newline] ++ 0 :: r =
      editHead name ++ space :: quote :: (t ++ newline :: 0 :: r) := by
    simp
  rw [hline, hchunk] at hfgets hlength'
  rw [List.append_cons _ newline after, List.drop_left, ← List.append_cons] at hfgets
  refine ⟨_, r, rfl, hlength', ?_⟩
  unfold read_request_arguments
  rw [hstream, hfgets, ok_bind]
  dsimp only
  rw [get_request_type_editHead, ok_bind]
  dsimp only
  rw [read_doc_name_editHead hname hlength, ok_bind]

/-! ## §8. Which commands are read back. -/

/-- The command is read as an EDIT with its name and content, and the input behind it is left. -/
def ReadBack (name content : CString) (buffer rest : List UInt8) : Prop :=
  ∃ doc_name doc_content buffer',
    read_request_arguments buffer (editLine name content ++ rest) =
      .ok (.EDIT_DOCUMENT doc_name doc_content, buffer', rest) ∧
    IsString doc_name name.bytes ∧ IsString doc_content content.bytes

/-- The content is one line, and its closing quote is not among the bytes that are searched. -/
def ClosingQuoteMissed (content : CString) : Prop :=
  newline ∉ content.bytes ∧ DOC_CONTENT_LENGTH ≤ content.length + 2

/-- The content is an empty line and one that leaves `fgets` no room behind the closing quote. -/
def NewlineLeft (content : CString) : Prop :=
  content.bytes.head? = some newline ∧ newline ∉ content.bytes.tail ∧
    content.length = DOC_CONTENT_LENGTH

instance (content : CString) : Decidable (ClosingQuoteMissed content) :=
  inferInstanceAs (Decidable (_ ∧ _))

instance (content : CString) : Decidable (NewlineLeft content) :=
  inferInstanceAs (Decidable (_ ∧ _ ∧ _))

/-- The first line is empty when so much of the content is behind it. -/
theorem newlineLeft_iff (hsplit : content.bytes = s ++ newline :: t) (hs : newline ∉ s)
    (hfits : content.length ≤ DOC_CONTENT_LENGTH) :
    NewlineLeft content ↔ newline ∉ t ∧ t.length + 1 = DOC_CONTENT_LENGTH := by
  have hlength : content.length = s.length + (t.length + 1) := by
    rw [CString.length, hsplit, List.length_append, List.length_cons]
  unfold NewlineLeft
  rw [hsplit]
  -- a byte in the first line would leave too few for the second
  cases s with
  | nil =>
    rw [List.length_nil, Nat.zero_add] at hlength
    rw [hlength]
    exact ⟨fun h => h.2, fun h => ⟨rfl, h⟩⟩
  | cons b s =>
    rw [List.length_cons] at hlength
    constructor
    · rintro ⟨-, htail, -⟩
      exact absurd (List.mem_append_right s List.mem_cons_self) htail
    · rintro ⟨-, hlong⟩
      omega

section ReadBack

variable (hname : quote ∉ name.bytes) (hnewline : newline ∉ name.bytes)
  (hlength : name.length ≤ DOC_NAME_LENGTH) (hcontent : quote ∉ content.bytes)
  (hfits : content.length ≤ DOC_CONTENT_LENGTH) (hbuffer : buffer.length = REQUEST_LENGTH + 1)

include hname hnewline hlength hfits hbuffer

/-- The first line of a content of one line ends with the closing quote. -/
theorem read_one_line (hone : newline ∉ content.bytes) (rest : List UInt8) :
    ∃ buffer' r,
      buffer' = editHead name ++ space :: quote :: (content.bytes ++ quote :: newline :: 0 :: r) ∧
      read_request_arguments buffer (editLine name content ++ rest) = (do
        let (doc_content, buffer, stream) ← read_doc_content buffer' rest (name.length + 6)
        pure (.EDIT_DOCUMENT (padded name.bytes (DOC_NAME_LENGTH + 1)) doc_content, buffer,
          stream)) := by
  have hstream : editLine name content ++ rest =
      editHead name ++ space :: quote :: (content.bytes ++ [quote] ++ newline :: rest) := by
    simp [editLine]
  have hclosed : newline ∉ content.bytes ++ [quote] := by
    rw [List.mem_append, List.mem_singleton, not_or]
    exact ⟨hone, by decide⟩
  obtain ⟨buffer', r, hbuffer', -, h⟩ := read_request_arguments_edit
    ⟨hname, name.nul_free⟩ hnewline hlength hclosed
    (by rw [List.length_append]; exact Nat.succ_le_succ hfits) hbuffer rest
  refine ⟨buffer', r, ?_, ?_⟩
  · rw [hbuffer', List.append_assoc, List.singleton_append]
  · rw [hstream, h]

include hcontent

/-- A content of one line is read back when its closing quote is found. -/
theorem readBack_of_one_line (hone : newline ∉ content.bytes)
    (hfound : content.length + 2 < DOC_CONTENT_LENGTH) (rest : List UInt8) :
    ReadBack name content buffer rest := by
  obtain ⟨buffer', r, rfl, h⟩ :=
    read_one_line hname hnewline hlength hfits hbuffer hone rest
  rw [read_doc_content_of_found (word_end_editHead name) ⟨hcontent, content.nul_free⟩ hfound,
    ok_bind] at h
  exact ⟨_, _, _, h, isString_padded name.nul_free (Nat.lt_succ_of_le hlength),
    isString_padded content.nul_free (Nat.lt_succ_of_le hfits)⟩

/-- A content of one line is not read back when its closing quote is missed: what is returned, if
anything, goes on with the quote. -/
theorem not_readBack_of_missed (hmissed : ClosingQuoteMissed content) (rest : List UInt8) :
    ¬ ReadBack name content buffer rest := by
  obtain ⟨hone, hlong⟩ := hmissed
  obtain ⟨buffer', r, rfl, h⟩ :=
    read_one_line hname hnewline hlength hfits hbuffer hone rest
  have hword : IsWord content.bytes := ⟨hcontent, content.nul_free⟩
  have hlimit : DOC_CONTENT_LENGTH - 2 ≤ content.bytes.length := Nat.sub_le_of_le_add hlong
  have hline : content.bytes ++ quote :: newline :: 0 :: r =
      content.bytes ++ [quote, newline] ++ 0 :: r := by
    rw [List.append_assoc, List.cons_append, List.singleton_append]
  have hnul : 0 ∉ content.bytes ++ [quote, newline] := by
    rw [List.mem_append, not_or]
    exact ⟨content.nul_free, by decide⟩
  rw [read_doc_content_of_missed (word_end_editHead name)
    (read_quoted_string_loop_of_limit hword hlimit _), hline] at h
  rintro ⟨doc_name, doc_content, buffer', hread, -, hstring⟩
  rw [hread] at h
  obtain ⟨⟨doc_content', buffer'', stream⟩, hresult, hpure⟩ := bind_eq_ok.mp h.symm
  cases hpure
  obtain ⟨copied, hcopied, hlines⟩ := bind_eq_ok.mp hresult
  by_cases hroom : (content.bytes ++ [quote, newline]).length < DOC_CONTENT_LENGTH + 1
  · -- it fits, and the loop appends to it
    rw [strcpy_calloc hnul hroom] at hcopied
    cases hcopied
    have hkept : content.bytes ++ [quote, newline] <+: doc_content :=
      prefix_of_read_content_lines hnul (List.prefix_append _ _) hlines
    -- the string in the result is longer than the content
    have hle := length_le_of_strlen hnul hkept hstring.strlen
    rw [List.length_append] at hle
    exact absurd hle (Nat.not_le.mpr (Nat.lt_add_of_pos_right (by decide)))
  · -- it does not fit, and the copy runs over the end
    rw [strcpy_calloc_of_le hnul (Nat.le_of_not_lt hroom)] at hcopied
    cases hcopied

/-- A content of several lines is always returned, and what is left of the input depends on its last
line. -/
theorem read_several_lines (hseveral : newline ∈ content.bytes) (rest : List UInt8) :
    ∃ buffer', read_request_arguments buffer (editLine name content ++ rest) =
      .ok (.EDIT_DOCUMENT (padded name.bytes (DOC_NAME_LENGTH + 1))
        (padded content.bytes (DOC_CONTENT_LENGTH + 1)), buffer',
        if NewlineLeft content then newline :: rest else rest) := by
  obtain ⟨s, t, hsplit, hs⟩ := List.eq_append_cons_of_mem hseveral
  have hwords : IsWord s ∧ IsWord (newline :: t) :=
    isWord_append.mp (hsplit ▸ (⟨hcontent, content.nul_free⟩ : IsWord content.bytes))
  have hlines : s.length + (t.length + 1) ≤ DOC_CONTENT_LENGTH := by
    rwa [CString.length, hsplit, List.length_append, List.length_cons] at hfits
  have hstream : editLine name content ++ rest =
      editHead name ++ space :: quote :: (s ++ newline :: (t ++ quote :: newline :: rest)) := by
    simp [editLine, hsplit]
  obtain ⟨buffer', r, rfl, hlength', h⟩ := read_request_arguments_edit
    ⟨hname, name.nul_free⟩ hnewline hlength hs (by omega) hbuffer (t ++ quote :: newline :: rest)
  have hroom : DOC_CONTENT_LENGTH <
      (editHead name ++ space :: quote :: (s ++ newline :: 0 :: r)).length := by
    rw [hlength', hbuffer]
    decide
  obtain ⟨buffer'', hlast⟩ := read_doc_content_of_lines (word_end_editHead name) hwords.1
    (isWord_cons.mp hwords.2).2 hlines r rest hroom
  rw [hlast, ok_bind, ← hsplit] at h
  refine ⟨buffer'', ?_⟩
  rw [hstream, h, if_congr (newlineLeft_iff hsplit hs hfits) rfl rfl]
  rfl

/-- **An EDIT is read back** with its name, its content and the input behind it exactly when its
closing quote is among the bytes that are searched and its newline is not left in the input. -/
theorem edit_read_back_iff (rest : List UInt8) :
    ReadBack name content buffer rest ↔ ¬ ClosingQuoteMissed content ∧ ¬ NewlineLeft content := by
  -- of several lines the last one matters, of a single one its length
  by_cases hseveral : newline ∈ content.bytes
  · have hfound : ¬ ClosingQuoteMissed content := fun h => h.1 hseveral
    obtain ⟨buffer', h⟩ :=
      read_several_lines hname hnewline hlength hcontent hfits hbuffer hseveral rest
    rw [and_iff_right hfound]
    constructor
    · rintro ⟨doc_name, doc_content, buffer'', hread, -⟩ hleft
      rw [h, if_pos hleft] at hread
      cases hread
    · intro hleft
      rw [if_neg hleft] at h
      exact ⟨_, _, _, h, isString_padded name.nul_free (Nat.lt_succ_of_le hlength),
        isString_padded content.nul_free (Nat.lt_succ_of_le hfits)⟩
  · have hleft : ¬ NewlineLeft content := fun h => hseveral (List.mem_of_mem_head? h.1)
    rw [and_iff_left hleft]
    constructor
    · intro hread hmissed
      exact not_readBack_of_missed hname hnewline hlength hcontent hfits hbuffer hmissed rest hread
    · intro hfound
      exact readBack_of_one_line hname hnewline hlength hcontent hfits hbuffer hseveral
        (Nat.lt_of_not_le (fun hlong => hfound ⟨hseveral, hlong⟩)) rest

end ReadBack

/-- A content of two lines, with a GET behind it. -/
theorem edit_read_back_two_lines :
    ReadBack (.ofString "a") (.ofString "hello\nworld") (calloc (REQUEST_LENGTH + 1))
      (CString.ofString "GET \"a\"\n").bytes :=
  (edit_read_back_iff (by decide +kernel) (by decide +kernel) (by decide +kernel)
    (by decide +kernel) (by decide +kernel) List.length_replicate _).mpr
    ⟨by decide +kernel, by decide +kernel⟩

/-- A content of one line, two bytes shorter than what is allowed. -/
def longLine : CString :=
  ⟨List.replicate (DOC_CONTENT_LENGTH - 2) 120,
    fun h => absurd (List.eq_of_mem_replicate h) (by decide)⟩

/-- A long line is not read back. -/
theorem long_line_not_read_back :
    (quote ∉ (CString.ofString "a").bytes ∧ newline ∉ (CString.ofString "a").bytes ∧
        (CString.ofString "a").length ≤ DOC_NAME_LENGTH) ∧
      (quote ∉ longLine.bytes ∧ longLine.length ≤ DOC_CONTENT_LENGTH) ∧
      ¬ ReadBack (.ofString "a") longLine (calloc (REQUEST_LENGTH + 1)) [] := by
  have hname : quote ∉ (CString.ofString "a").bytes ∧ newline ∉ (CString.ofString "a").bytes ∧
      (CString.ofString "a").length ≤ DOC_NAME_LENGTH := by decide +kernel
  have hlength : longLine.length = DOC_CONTENT_LENGTH - 2 := List.length_replicate
  have hfits : longLine.length ≤ DOC_CONTENT_LENGTH := by
    rw [hlength]
    exact Nat.sub_le _ _
  have hquote : quote ∉ longLine.bytes := fun h =>
    absurd (List.eq_of_mem_replicate h) (by decide)
  have hmissed : ClosingQuoteMissed longLine := by
    refine ⟨fun h => absurd (List.eq_of_mem_replicate h) (by decide), ?_⟩
    rw [hlength]
    decide
  exact ⟨hname, ⟨hquote, hfits⟩, not_readBack_of_missed hname.1 hname.2.1 hname.2.2 hquote hfits
    List.length_replicate hmissed []⟩

end DistDb.Input
