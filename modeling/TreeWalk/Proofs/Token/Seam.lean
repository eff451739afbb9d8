import TreeWalk.Proofs.Token.Layout

/-!
# Texts joined by a line end

A line end keeps what stands before it apart from what follows: **the pieces of two texts with a
line end between them are the pieces of the one, the line end, and the pieces of the other**
(`pieces_append_newline`).  No rule matches across a line end except the one for strings, and a
string that is still open at the end of the first text is an illegal piece there; so the first text
must not have one.

The tokens of the second text then stand on later lines (`ofSource_append_newline`).
-/

set_option autoImplicit false

namespace TreeWalk.Token

namespace Piece

section Runs

variable {p : Char → Bool} {d : Char}

theorem takeWhile_append_stop (hd : p d = false) (cs more : List Char) :
    (cs ++ d :: more).takeWhile p = cs.takeWhile p := by
  induction cs with
  | nil => simp [hd]
  | cons c cs ih =>
    by_cases hc : p c = true
    · simp [hc, ih]
    · simp [hc]

theorem dropWhile_append_stop (hd : p d = false) (cs more : List Char) :
    (cs ++ d :: more).dropWhile p = cs.dropWhile p ++ d :: more := by
  induction cs with
  | nil => simp [hd]
  | cons c cs ih =>
    by_cases hc : p c = true
    · simp [hc, ih]
    · simp [hc]

end Runs

/-- A closed string is not changed by what follows it. -/
theorem readQuoted_append {cs rest : List Char} {p : Piece} (h : readQuoted cs = (p, rest))
    (hp : p.kind? ≠ some .illegal) (more : List Char) :
    readQuoted (cs ++ more) = (p, rest ++ more) := by
  unfold readQuoted at h
  split at h
  · next d rest' hdrop =>
    cases h
    have hclosed : ∃ c ∈ cs, ¬ decide (c ≠ '"') = true := by
      by_contra hnone
      rw [List.dropWhile_eq_nil_iff.2 fun c hc => Classical.not_not.1 fun hneg =>
        hnone ⟨c, hc, hneg⟩] at hdrop
      cases hdrop
    obtain ⟨c, hc, hquote⟩ := hclosed
    have hlong : (cs.takeWhile (· ≠ '"')).length ≠ cs.length := fun hlen => by
      rw [← (List.takeWhile_prefix _).eq_of_length hlen] at hc
      exact hquote (List.all_eq_true.1 List.all_takeWhile c hc)
    rw [readQuoted, List.dropWhile_append, hdrop, List.takeWhile_append, if_neg hlong]
    rfl
  · cases h
    exact absurd rfl hp

/-- A symbol is not extended by a line end. -/
theorem readSymbol_append_newline (c : Char) (cs more : List Char) :
    readSymbol c (cs ++ '\n' :: more) =
      ((readSymbol c cs).1, (readSymbol c cs).2 ++ '\n' :: more) := by
  have hhead : (cs ++ '\n' :: more).head?.bind (Kind.ofPair? c) =
      cs.head?.bind (Kind.ofPair? c) := by
    cases cs with
    | nil => simp [Kind.ofPair?]
    | cons d cs => rfl
  unfold readSymbol
  rw [hhead]
  split
  · next k hk =>
    obtain ⟨d, hd, -⟩ := Option.bind_eq_some_iff.1 hk
    obtain ⟨cs, rfl⟩ := List.head?_eq_some_iff.1 hd
    rfl
  · split <;> rfl

/-- **Reading stops before a line end**: a line end behind the text does not change the piece at its
head, unless a string is still open there. -/
theorem read_append_newline {c : Char} {cs rest : List Char} {p : Piece}
    (h : read c cs = (p, rest)) (hp : p.kind? ≠ some .illegal) (more : List Char) :
    read c (cs ++ '\n' :: more) = (p, rest ++ '\n' :: more) := by
  have hhead : decide ((cs ++ '\n' :: more).head? = some '/') = decide (cs.head? = some '/') := by
    cases cs with
    | nil => rfl
    | cons d cs => rfl
  unfold read at h ⊢
  rw [hhead]
  split
  · next hline =>
    rw [if_pos hline] at h
    cases h
    rfl
  next hline =>
  rw [if_neg hline] at h
  split
  · next hspace =>
    rw [if_pos hspace] at h
    cases h
    rw [takeWhile_append_stop rfl, dropWhile_append_stop rfl]
  next hspace =>
  rw [if_neg hspace] at h
  split
  · next hcomment =>
    rw [if_pos hcomment] at h
    cases h
    rw [takeWhile_append_stop rfl, dropWhile_append_stop rfl]
  next hcomment =>
  rw [if_neg hcomment] at h
  split
  · next hword =>
    rw [if_pos hword] at h
    cases h
    rw [takeWhile_append_stop rfl, dropWhile_append_stop rfl]
  next hword =>
  rw [if_neg hword] at h
  split
  · next hdigit =>
    rw [if_pos hdigit] at h
    cases h
    rw [takeWhile_append_stop rfl, dropWhile_append_stop rfl]
  next hdigit =>
  rw [if_neg hdigit] at h
  split
  · next hquote =>
    rw [if_pos hquote] at h
    exact readQuoted_append h hp _
  · next hquote =>
    rw [if_neg hquote] at h
    rw [readSymbol_append_newline, h]

end Piece

/-- No piece is illegal. -/
def Sound (ps : List Piece) : Prop := ∀ p ∈ ps, p.kind? ≠ some .illegal

theorem sound_of_number {line : Nat} {ps : List Piece}
    (h : ∀ t ∈ number line ps, t.kind ≠ .illegal) : Sound ps := by
  intro p hp hkind
  obtain ⟨literal, rfl⟩ : ∃ literal, p = .lexeme .illegal literal := by
    cases p with
    | gap text => cases hkind
    | lexeme kind literal =>
      cases hkind
      exact ⟨literal, rfl⟩
  have hword : (Kind.illegal, literal) ∈ (number line ps).map word := by
    rw [map_word_number]
    exact List.mem_filterMap.2 ⟨_, hp, rfl⟩
  obtain ⟨t, ht, heq⟩ := List.mem_map.1 hword
  exact h t ht (congrArg Prod.fst heq)

/-- **A line end keeps the texts before and behind it apart.** -/
theorem pieces_append_newline {cs : List Char} (h : Sound (pieces cs)) (more : List Char) :
    pieces (cs ++ '\n' :: more) = pieces cs ++ .gap "\n" :: pieces more := by
  induction cs using pieces.induct with
  | case1 =>
    rw [List.nil_append, pieces_nil, pieces_cons]
    rfl
  | case2 c cs _ ih =>
    rw [pieces_cons] at h ⊢
    obtain ⟨hfirst, hrest⟩ := List.forall_mem_cons.1 h
    have hread : Piece.read c (cs ++ '\n' :: more) =
        ((Piece.read c cs).1, (Piece.read c cs).2 ++ '\n' :: more) :=
      Piece.read_append_newline rfl hfirst more
    rw [List.cons_append, pieces_cons, hread, ih hrest, List.cons_append]

/-- The pieces of a text are told apart from each other. -/
theorem joined_pieces (cs : List Char) : Joined (pieces cs) := by
  induction cs using pieces.induct with
  | case1 =>
    rw [pieces_nil]
    trivial
  | case2 c cs _ ih =>
    rw [pieces_cons]
    refine ⟨⟨c, cs, ?_, ?_⟩, ih⟩
    · rw [flatMap_chars_pieces, Piece.chars_read]
    · rw [flatMap_chars_pieces]

/-! ## Lines -/

/-- The token, some lines further down. -/
def later (k : Nat) (t : Token) : Token := { t with line := t.line + k }

theorem number_add (line k : Nat) (ps : List Piece) :
    number (line + k) ps = (number line ps).map (later k) := by
  induction ps generalizing line with
  | nil => rfl
  | cons p ps ih =>
    cases p with
    | gap text =>
      rw [number, number, ← ih, Nat.add_right_comm]
    | lexeme kind literal =>
      rw [number, number, List.map_cons, ← ih, Nat.add_right_comm]
      rfl

theorem lineAfter_append (line : Nat) (ps qs : List Piece) :
    lineAfter line (ps ++ qs) = lineAfter (lineAfter line ps) qs :=
  List.foldl_append

theorem lineAfter_add (line k : Nat) (ps : List Piece) :
    lineAfter (line + k) ps = lineAfter line ps + k := by
  induction ps generalizing line with
  | nil => rfl
  | cons p ps ih =>
    show lineAfter (line + k + p.newlines) ps = lineAfter (line + p.newlines) ps + k
    rw [Nat.add_right_comm, ih]

/-- Pieces that are not illegal move the line on by the line ends in them. -/
theorem lineAfter_eq_count {ps : List Piece} (h : Sound ps) (line : Nat) :
    lineAfter line ps = line + (ps.flatMap Piece.chars).count '\n' := by
  induction ps generalizing line with
  | nil => rfl
  | cons p ps ih =>
    obtain ⟨hfirst, hrest⟩ := List.forall_mem_cons.1 h
    have hlines : p.newlines = p.chars.count '\n' := by
      unfold Piece.newlines
      split
      · exact absurd rfl hfirst
      · rfl
    show lineAfter (line + p.newlines) ps = _
    rw [ih hrest, List.flatMap_cons, List.count_append, hlines, Nat.add_assoc]

/-- The tokens of two texts with a line end between them: those of the second text stand on later
lines. -/
theorem ofSource_append_newline {a : String} (h : Sound (pieces a.toList)) (b : String) :
    Stream.ofSource (a ++ "\n" ++ b) =
      ⟨(Stream.ofSource a).tokens ++
          (Stream.ofSource b).tokens.map (later (a.toList.count '\n' + 1)),
        (Stream.ofSource b).lastLine + (a.toList.count '\n' + 1)⟩ := by
  have htext : (a ++ "\n" ++ b).toList = a.toList ++ '\n' :: b.toList := by simp
  have hline : lineAfter 1 (pieces a.toList) + (Piece.gap "\n").newlines =
      1 + (a.toList.count '\n' + 1) := by
    rw [lineAfter_eq_count h, flatMap_chars_pieces, Nat.add_assoc]
    rfl
  rw [Stream.ofSource, htext, pieces_append_newline h, Stream.ofPieces, number_append,
    lineAfter_append]
  congr 1
  · rw [number, hline, number_add]
    rfl
  · show lineAfter (lineAfter 1 (pieces a.toList) + (Piece.gap "\n").newlines)
      (pieces b.toList) = _
    rw [hline, lineAfter_add]
    rfl

end TreeWalk.Token
