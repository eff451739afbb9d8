import Mathlib.Data.List.TakeWhile
import TreeWalk.Proofs.Token.Joined

/-!
# The longest match

The words of the language are given by rules, each of which matches some texts: three rules for
what is skipped (a run of blanks, a line end, a comment) and one for each sort of token.  `Rule`
lists them, and `Rule.Matches` says what each of them matches, without saying how a text is cut.

A source is cut greedily.  At every position the longest start of the remaining text that any rule
matches is taken, and of two rules that match the same text the more special one wins: the only
such case is a keyword, which is a word too.  Where no rule matches any start of the text, one
character becomes an illegal token, or all that is left if the character is a quote.

`ofSource_longest_match` says this of every token of every source, together with what stands
between the tokens: nothing is lost, and a gap is made of blanks, line ends and whole comments.
-/

set_option autoImplicit false

namespace TreeWalk.Token

/-! ## The rules -/

/-- The symbols. -/
def Kind.symbols : List Kind := Piece.firm ++ Piece.loose

/-- The rules by which a source is cut. -/
inductive Rule
  | blanks
  | newline
  | comment
  | word
  | number
  | string
  /-- A symbol or a keyword. -/
  | mark (kind : Kind)
  deriving DecidableEq, Repr

namespace Rule

/-- The texts that a rule matches. -/
def Matches : Rule → List Char → Prop
  | blanks, w => w ≠ [] ∧ ∀ c ∈ w, c ∈ [' ', '\t', '\r', '\x0c']
  | newline, w => w = ['\n']
  | comment, w => ∃ body, w = '/' :: '/' :: body ∧ '\n' ∉ body
  | word, w => ∃ c cs, w = c :: cs ∧ (c.isAlpha ∨ c = '_') ∧ ∀ d ∈ cs, d.isAlphanum ∨ d = '_'
  | number, w => w ≠ [] ∧ ∀ c ∈ w, c.isDigit
  | string, w => ∃ body, w = '"' :: (body ++ ['"']) ∧ '"' ∉ body
  | mark k, w => k ∈ Kind.keywords ++ Kind.symbols ∧ w = k.text.toList

/-- The kind of token that a rule makes; three of the rules make none. -/
def kind? : Rule → Option Kind
  | blanks | newline | comment => none
  | word => some .identifier
  | number => some .number
  | string => some .string
  | mark k => some k

theorem ne_nil_of_matches {r : Rule} {w : List Char} (h : r.Matches w) : w ≠ [] := by
  cases r with
  | blanks => exact h.1
  | newline => exact h ▸ List.cons_ne_nil _ _
  | comment =>
    obtain ⟨body, rfl, -⟩ := h
    exact List.cons_ne_nil _ _
  | word =>
    obtain ⟨c, cs, rfl, -⟩ := h
    exact List.cons_ne_nil _ _
  | number => exact h.1
  | string =>
    obtain ⟨body, rfl, -⟩ := h
    exact List.cons_ne_nil _ _
  | mark k =>
    obtain ⟨hk, rfl⟩ := h
    revert k
    decide

/-- Every keyword is a word. -/
theorem word_matches_keyword {k : Kind} (hk : k ∈ Kind.keywords) : word.Matches k.text.toList := by
  have hstart : ∀ k ∈ Kind.keywords, isWordStart k.first = true ∧
      k.text.toList = k.first :: k.text.toList.tail ∧
      k.text.toList.tail.all isWordChar = true := by
    decide
  obtain ⟨hfirst, htext, htail⟩ := hstart k hk
  refine ⟨_, _, htext, by simpa [isWordStart] using hfirst, fun d hd => ?_⟩
  simpa [isWordChar] using List.all_eq_true.1 htail d hd

end Rule

/-! ## What stands between tokens -/

/-- The text is a gap before `follow`: blanks, line ends, and comments each of which goes on up to
a line end or the end of everything. -/
inductive Gap : List Char → List Char → Prop
  | nil {follow : List Char} : Gap [] follow
  | blank {c : Char} {gap follow : List Char} (hc : c ∈ [' ', '\t', '\r', '\x0c', '\n'])
      (h : Gap gap follow) : Gap (c :: gap) follow
  | comment {body gap follow : List Char} (hbody : '\n' ∉ body)
      (hend : ∀ c ∈ (gap ++ follow).head?, c = '\n') (h : Gap gap follow) :
      Gap ('/' :: '/' :: body ++ gap) follow

/-- What a skip rule matches extends a gap to the left; a comment must reach to a line end. -/
theorem Gap.of_matches {r : Rule} {w gap follow : List Char} (hr : r.Matches w)
    (hkind : r.kind? = none) (hend : r = .comment → ∀ c ∈ (gap ++ follow).head?, c = '\n')
    (h : Gap gap follow) : Gap (w ++ gap) follow := by
  cases r with
  | blanks =>
    obtain ⟨-, hw⟩ := hr
    induction w with
    | nil => exact h
    | cons c w ih =>
      refine .blank ?_ (ih fun d hd => hw d (List.mem_cons_of_mem c hd))
      exact List.mem_append_left ['\n'] (hw c List.mem_cons_self)
  | newline =>
    cases hr
    exact .blank (by decide) h
  | comment =>
    obtain ⟨body, rfl, hbody⟩ := hr
    exact .comment hbody (hend rfl) h
  | word => cases hkind
  | number => cases hkind
  | string => cases hkind
  | mark k => cases hkind

/-! ## How the rules are read -/

namespace Piece

/-- The kind of token that a piece makes. -/
def kind? : Piece → Option Kind
  | gap _ => none
  | lexeme kind _ => some kind

theorem isSpace_iff {c : Char} : isSpace c = true ↔ c ∈ [' ', '\t', '\r', '\x0c'] := by
  simp [isSpace, or_assoc]

/-- Blanks are read as a gap, which is as long as possible. -/
theorem read_space {c : Char} (cs : List Char) (hc : isSpace c = true) :
    read c cs = (gap (String.ofList (c :: cs.takeWhile isSpace)), cs.dropWhile isSpace) := by
  have hn : c ≠ '\n' := ne_of_class hc (by decide)
  rw [read, if_neg hn, if_pos hc]

/-- A comment is read up to the end of its line. -/
theorem read_comment (cs : List Char) :
    read '/' ('/' :: cs) =
      (gap (String.ofList ('/' :: '/' :: cs.takeWhile (· ≠ '\n'))), cs.dropWhile (· ≠ '\n')) :=
  rfl

/-- A run of characters of a class is part of the longest such run. -/
theorem prefix_takeWhile {p : Char → Bool} {us cs : List Char} (hus : ∀ d ∈ us, p d = true)
    (h : us <+: cs) : us <+: cs.takeWhile p := by
  obtain ⟨rest, rfl⟩ := h
  rw [List.takeWhile_append_of_pos hus]
  exact List.prefix_append _ _

/-- The characters of a run are all of its class. -/
theorem of_mem_run {p : Char → Bool} {c d : Char} {cs : List Char} (hc : p c = true)
    (hd : d ∈ c :: cs.takeWhile p) : p d = true := by
  obtain rfl | hd := List.mem_cons.1 hd
  · exact hc
  · exact List.mem_takeWhile_imp hd

/-- The piece does justice to a text that a rule matches: it holds the whole text, and if it holds
no more, it is of the rule's kind or is a keyword, which outranks a word. -/
structure Honours (p : Piece) (r : Rule) (w : List Char) : Prop where
  whole : w <+: p.chars
  legal : p.kind? ≠ some .illegal
  rank : p.chars = w → r.kind? = p.kind? ∨ r = .word ∧ ∃ k ∈ Kind.keywords, p.kind? = some k

/-- A gap does justice to any skip rule. -/
theorem honours_gap {r : Rule} {text : String} {w : List Char} (hr : r.kind? = none)
    (h : w <+: text.toList) : (gap text).Honours r w :=
  ⟨h, by simp [kind?], fun _ => .inl hr⟩

/-- A lexeme of the rule's own kind does justice to the rule. -/
theorem honours_lexeme {r : Rule} {k : Kind} {literal : String} {w : List Char}
    (hr : r.kind? = some k) (hk : k ≠ .illegal) (h : w <+: (lexeme k literal).chars) :
    (lexeme k literal).Honours r w :=
  ⟨h, by simpa [kind?] using hk, fun _ => .inl hr⟩

/-- A word is an identifier unless it is the text of a keyword. -/
theorem ofWord_cases (word : String) :
    Kind.ofWord word = .identifier ∨
      Kind.ofWord word ∈ Kind.keywords ∧ (Kind.ofWord word).text = word := by
  unfold Kind.ofWord
  cases hf : Kind.keywords.find? (fun k => k.text = word) with
  | none => exact .inl rfl
  | some k => exact .inr ⟨List.mem_of_find?_eq_some hf, by simpa using List.find?_some hf⟩

theorem ofWord_ne_illegal (word : String) : Kind.ofWord word ≠ .illegal := by
  obtain h | ⟨h, -⟩ := ofWord_cases word
  · rw [h]
    decide
  · intro heq
    rw [heq] at h
    exact absurd h (by decide)

/-- A word is read whole, and as a keyword if it is one. -/
theorem honours_read_word {c : Char} {us cs : List Char} (h : Rule.word.Matches (c :: us))
    (hus : us <+: cs) : (read c cs).1.Honours .word (c :: us) := by
  obtain ⟨_, _, ⟨⟩, hc, hrun⟩ := h
  have hstart : isWordStart c = true := by simpa [isWordStart] using hc
  have hchars : ∀ d ∈ us, isWordChar d = true := fun d hd => by
    simpa [isWordChar] using hrun d hd
  rw [read_word cs hstart]
  refine ⟨?_, ?_, fun _ => ?_⟩
  · rw [chars_lexeme _ (Kind.ofWord_ne_string _), String.toList_ofList]
    exact List.cons_prefix_cons.2 ⟨rfl, prefix_takeWhile hchars hus⟩
  · simpa [kind?] using ofWord_ne_illegal _
  · obtain hid | ⟨hkw, -⟩ := ofWord_cases (String.ofList (c :: cs.takeWhile isWordChar))
    · exact .inl (congrArg some hid).symm
    · exact .inr ⟨rfl, _, hkw, rfl⟩

/-- A keyword is read as a word, and has its own kind if the word goes no further. -/
theorem honours_read_keyword {k : Kind} {c : Char} {us cs : List Char} (hk : k ∈ Kind.keywords)
    (htext : k.text.toList = c :: us) (hus : us <+: cs) :
    (read c cs).1.Honours (.mark k) (c :: us) := by
  have hword : Rule.word.Matches (c :: us) := htext ▸ Rule.word_matches_keyword hk
  have hread := honours_read_word hword hus
  refine ⟨hread.whole, hread.legal, fun heq => .inl ?_⟩
  obtain ⟨_, _, ⟨⟩, hc, -⟩ := hword
  have hstart : isWordStart c = true := by simpa [isWordStart] using hc
  have hof : ∀ k ∈ Kind.keywords, Kind.ofWord k.text = k := by decide
  rw [read_word cs hstart] at heq ⊢
  rw [chars_lexeme _ (Kind.ofWord_ne_string _), String.toList_ofList, ← htext] at heq
  rw [heq, String.ofList_toList, hof k hk]
  rfl

/-- The symbols are one character, or one character and an equals sign. -/
theorem symbol_cases {k : Kind} (hk : k ∈ Kind.symbols) :
    k ≠ .illegal ∧ k ≠ .string ∧
      (k.text.toList = [k.first] ∧ Kind.ofChar? k.first = some k ∨
        k.text.toList = [k.first, '='] ∧ Kind.ofPair? k.first '=' = some k) := by
  revert k
  decide

theorem mem_symbols_of_ofChar? {c : Char} {k : Kind} (h : Kind.ofChar? c = some k) :
    k ∈ Kind.symbols := by
  unfold Kind.ofChar? at h
  split at h <;> cases h <;> decide

theorem mem_symbols_of_ofPair? {c d : Char} {k : Kind} (h : Kind.ofPair? c d = some k) :
    k ∈ Kind.symbols := by
  unfold Kind.ofPair? at h
  split at h
  · split at h <;> cases h <;> decide
  · cases h

/-- The text of a symbol, as a piece of a source. -/
theorem chars_mark {k : Kind} (hk : k ∈ Kind.symbols) : (mark k).chars = k.text.toList :=
  chars_lexeme _ (symbol_cases hk).2.1

/-- A symbol does justice to every symbol that it starts with. -/
theorem honours_mark {j k : Kind} {w : List Char} (hj : j ∈ Kind.symbols)
    (hw : w <+: j.text.toList) (heq : j.text.toList = w → k = j) :
    (mark j).Honours (.mark k) w := by
  have hchars := chars_mark hj
  refine ⟨hchars ▸ hw, ?_, fun h => .inl (congrArg some (heq (hchars ▸ h)))⟩
  simpa [mark, kind?] using (symbol_cases hj).1

/-- A symbol is read whole, and never as a part of a symbol that goes further. -/
theorem honours_read_symbol {k : Kind} {c : Char} {us cs : List Char} (hk : k ∈ Kind.symbols)
    (htext : k.text.toList = c :: us) (hus : us <+: cs) :
    (read c cs).1.Honours (.mark k) (c :: us) := by
  obtain ⟨-, -, ⟨hone, hchar⟩ | ⟨htwo, hpair⟩⟩ := symbol_cases hk
  · obtain ⟨rfl, rfl⟩ : k.first = c ∧ [] = us := by simpa [hone] using htext
    by_cases hcomment : k.first = '/' ∧ cs.head? = some '/'
    · obtain ⟨hslash, hhead⟩ := hcomment
      obtain ⟨cs, rfl⟩ := List.head?_eq_some_iff.1 hhead
      rw [hslash, read_comment]
      exact ⟨by simp [chars], by simp [kind?], fun heq => by simp [chars] at heq⟩
    · rw [read_symbol hchar fun hslash hhead => hcomment ⟨hslash, hhead⟩, readSymbol]
      cases hbind : cs.head?.bind (Kind.ofPair? k.first) with
      | none =>
        simp only [hchar]
        exact honours_mark hk (htext ▸ List.prefix_rfl) fun _ => rfl
      | some j =>
        obtain ⟨d, -, hj⟩ := Option.bind_eq_some_iff.1 hbind
        have hjtext : j.text.toList = [k.first, d] := by simp [Kind.text_of_ofPair? hj]
        refine honours_mark (mem_symbols_of_ofPair? hj) ?_ fun heq => ?_
        · simp [hjtext]
        · simp [hjtext] at heq
  · obtain ⟨rfl, rfl⟩ : k.first = c ∧ ['='] = us := by simpa [htwo] using htext
    obtain ⟨rest, rfl⟩ := hus
    obtain ⟨_, _, htail, hread⟩ := standsBefore_pair hpair rest
    rw [chars_mark hk, htext] at htail
    cases htail
    exact hread ▸ honours_mark hk (htext ▸ List.prefix_rfl) fun _ => rfl

/-- **Reading is greedy**: whatever a rule matches at the head of a text, the piece read there does
justice to it. -/
theorem honours_read {r : Rule} {c : Char} {us cs : List Char} (h : r.Matches (c :: us))
    (hus : us <+: cs) : (read c cs).1.Honours r (c :: us) := by
  cases r with
  | blanks =>
    have hspace : ∀ d ∈ c :: us, isSpace d = true := fun d hd => isSpace_iff.2 (h.2 d hd)
    rw [read_space cs (hspace c List.mem_cons_self)]
    refine honours_gap rfl ?_
    rw [String.toList_ofList]
    exact List.cons_prefix_cons.2
      ⟨rfl, prefix_takeWhile (fun d hd => hspace d (List.mem_cons_of_mem c hd)) hus⟩
  | newline =>
    cases h
    exact honours_gap rfl List.prefix_rfl
  | comment =>
    obtain ⟨body, ⟨⟩, hbody⟩ := h
    obtain ⟨rest, rfl⟩ := hus
    rw [List.cons_append, read_comment]
    refine honours_gap rfl ?_
    have hline : ∀ d ∈ body, decide (d ≠ '\n') = true := fun d hd =>
      decide_eq_true fun heq => hbody (heq ▸ hd)
    rw [String.toList_ofList]
    simpa using prefix_takeWhile hline (List.prefix_append body rest)
  | word => exact honours_read_word h hus
  | number =>
    rw [read_digit cs (h.2 c List.mem_cons_self)]
    refine honours_lexeme rfl (by decide) ?_
    rw [chars_lexeme _ (by decide), String.toList_ofList]
    exact List.cons_prefix_cons.2
      ⟨rfl, prefix_takeWhile (fun d hd => h.2 d (List.mem_cons_of_mem c hd)) hus⟩
  | string =>
    obtain ⟨body, ⟨⟩, hbody⟩ := h
    obtain ⟨rest, rfl⟩ := hus
    have hstring : '"' ∉ (String.ofList body).toList := by rwa [String.toList_ofList]
    obtain ⟨_, _, htail, hread⟩ := standsBefore_string rest hstring
    simp only [chars, String.toList_ofList, List.cons_append] at htail
    cases htail
    rw [hread]
    exact honours_lexeme rfl (by decide) (by simp [chars])
  | mark k =>
    obtain ⟨hk, htext⟩ := h
    obtain hk | hk := List.mem_append.1 hk
    · exact honours_read_keyword hk htext.symm hus
    · exact honours_read_symbol hk htext.symm hus

/-- The text is what is taken where no rule matches: one character that is no quote, or, behind a
quote that is never closed, all that is left. -/
def Stray (w rest : List Char) : Prop :=
  (∃ c, c ≠ '"' ∧ w = [c]) ∨ ∃ body, w = '"' :: body ∧ '"' ∉ body ∧ rest = []

/-- The piece is what some rule of its kind matches, where a comment must reach to the end of its
line; or it is illegal, and stray. -/
def Lawful (p : Piece) (rest : List Char) : Prop :=
  (∃ r : Rule, r.kind? = p.kind? ∧ r.Matches p.chars ∧
    (r = .comment → ∀ d ∈ rest.head?, d = '\n')) ∨
  (p.kind? = some .illegal ∧ Stray p.chars rest)

/-- A piece that a rule other than the one for comments matches. -/
theorem Lawful.of_matches {p : Piece} {rest : List Char} (r : Rule) (hne : r ≠ .comment)
    (hkind : r.kind? = p.kind?) (h : r.Matches p.chars) : p.Lawful rest :=
  .inl ⟨r, hkind, h, fun heq => absurd heq hne⟩

/-- A word is lawful: as a keyword if it is one, and as an identifier else. -/
theorem lawful_word {word : String} (rest : List Char) (h : Rule.word.Matches word.toList) :
    (lexeme (Kind.ofWord word) word).Lawful rest := by
  have hchars := chars_lexeme word (Kind.ofWord_ne_string word)
  obtain hid | ⟨hkw, htext⟩ := ofWord_cases word
  · exact .of_matches .word (by decide) (congrArg some hid).symm (hchars ▸ h)
  · refine .of_matches (.mark (Kind.ofWord word)) (by simp) rfl ?_
    exact ⟨List.mem_append_left _ hkw, by rw [hchars, htext]⟩

/-- A symbol is lawful. -/
theorem lawful_mark {k : Kind} (rest : List Char) (hk : k ∈ Kind.symbols) :
    (mark k).Lawful rest :=
  .of_matches (.mark k) (by simp) rfl ⟨List.mem_append_right _ hk, chars_mark hk⟩

/-- What starts with a quote is a string, or is never closed. -/
theorem lawful_readQuoted (cs : List Char) : (readQuoted cs).1.Lawful (readQuoted cs).2 := by
  unfold readQuoted
  split
  · refine .of_matches .string (by decide) rfl ⟨cs.takeWhile (· ≠ '"'), by simp [chars], ?_⟩
    intro hquote
    simpa using List.mem_takeWhile_imp hquote
  · next hopen =>
    refine .inr ⟨rfl, .inr ⟨cs, by simp [chars], fun hquote => ?_, rfl⟩⟩
    simpa using List.dropWhile_eq_nil_iff.1 hopen '"' hquote

/-- What is read as a symbol is one, or is a stray character. -/
theorem lawful_readSymbol {c : Char} (cs : List Char) (hc : c ≠ '"') :
    (readSymbol c cs).1.Lawful (readSymbol c cs).2 := by
  unfold readSymbol
  split
  · next k hk =>
    obtain ⟨d, -, hpair⟩ := Option.bind_eq_some_iff.1 hk
    exact lawful_mark _ (mem_symbols_of_ofPair? hpair)
  · split
    · next k hk => exact lawful_mark _ (mem_symbols_of_ofChar? hk)
    · exact .inr ⟨rfl, .inl ⟨c, hc, by simp [chars]⟩⟩

/-- **Reading keeps to the rules.** -/
theorem lawful_read (c : Char) (cs : List Char) : (read c cs).1.Lawful (read c cs).2 := by
  unfold read
  split
  · exact .of_matches .newline (by decide) rfl rfl
  split
  · next hspace =>
    refine .of_matches .blanks (by decide) rfl ⟨by simp [chars], fun d hd => isSpace_iff.1 ?_⟩
    exact of_mem_run hspace (by simpa [chars] using hd)
  split
  · next hslash =>
    obtain ⟨rfl, hhead⟩ : c = '/' ∧ cs.head? = some '/' := by simpa using hslash
    obtain ⟨cs, rfl⟩ := List.head?_eq_some_iff.1 hhead
    refine .inl ⟨.comment, rfl, ⟨cs.takeWhile (· ≠ '\n'), by simp [chars], ?_⟩, fun _ d hd => ?_⟩
    · intro hline
      simpa using List.mem_takeWhile_imp hline
    · have hstop := List.head?_dropWhile_not (· ≠ '\n') ('/' :: cs)
      rw [show (List.dropWhile (· ≠ '\n') ('/' :: cs)).head? = some d from hd] at hstop
      simpa using hstop
  split
  · next hstart =>
    refine lawful_word _ ⟨c, cs.takeWhile isWordChar, by simp, ?_, fun d hd => ?_⟩
    · simpa [isWordStart] using hstart
    · simpa [isWordChar] using List.mem_takeWhile_imp hd
  split
  · next hdigit =>
    refine .of_matches .number (by decide) rfl ⟨by simp [chars], fun d hd => ?_⟩
    exact of_mem_run hdigit (by simpa [chars] using hd)
  split
  · exact lawful_readQuoted cs
  · next hquote => exact lawful_readSymbol cs hquote

end Piece

/-! ## Tokens -/

/-- The text of a token in the source: a string gets its quotes back. -/
def chars (t : Token) : List Char := (Piece.lexeme t.kind t.literal).chars

/-- The token is the longest match at the head of the text that it makes up with `rest`. -/
structure Longest (t : Token) (rest : List Char) : Prop where
  /-- Some rule of the token's kind matches its text. -/
  rule : ∃ r : Rule, r.kind? = some t.kind ∧ r.Matches t.chars
  /-- No rule matches more. -/
  most : ∀ (r : Rule) (w : List Char), w <+: t.chars ++ rest → r.Matches w →
    w.length ≤ t.chars.length
  /-- Every rule that matches as much is of the token's kind too, unless a keyword outranks it. -/
  rank : ∀ r : Rule, r.Matches t.chars →
    r.kind? = some t.kind ∨ r = .word ∧ t.kind ∈ Kind.keywords

/-- The token stands where no rule matches at the head of the text that it makes up with `rest`,
and is one character, or everything from a quote on. -/
structure Unmatched (t : Token) (rest : List Char) : Prop where
  none : ∀ (r : Rule) (w : List Char), w <+: t.chars ++ rest → ¬ r.Matches w
  stray : Piece.Stray t.chars rest

/-- The token is cut from the head of the text that it makes up with `rest`, as the rules say. -/
structure Cut (t : Token) (rest : List Char) : Prop where
  nonempty : t.chars ≠ []
  legal : t.kind ≠ .illegal → t.Longest rest
  illegal : t.kind = .illegal → t.Unmatched rest

/-- A token that is read is cut as the rules say. -/
theorem cut_read {c : Char} {cs rest : List Char} {kind : Kind} {literal : String} (line : Nat)
    (h : Piece.read c cs = (.lexeme kind literal, rest)) :
    (Token.mk kind literal line).Cut rest := by
  have htext : (Token.mk kind literal line).chars ++ rest = c :: cs := by
    simpa [h, chars] using Piece.chars_read c cs
  have hne : (Token.mk kind literal line).chars ≠ [] := by
    simpa [h, chars] using Piece.chars_read_ne_nil c cs
  have hhonours : ∀ (r : Rule) (w : List Char), w <+: c :: cs → r.Matches w →
      (Piece.lexeme kind literal).Honours r w := by
    intro r w hw hr
    obtain ⟨d, us, rfl⟩ := List.exists_cons_of_ne_nil (r.ne_nil_of_matches hr)
    obtain ⟨rfl, hus⟩ := List.cons_prefix_cons.1 hw
    simpa [h] using Piece.honours_read hr hus
  have hlawful := Piece.lawful_read c cs
  rw [h] at hlawful
  refine ⟨hne, fun hlegal => ?_, fun hillegal => ?_⟩
  · obtain ⟨r, hkind, hr, -⟩ | ⟨hkind, -⟩ := hlawful
    · refine ⟨⟨r, hkind, hr⟩, fun r w hw hr => ?_, fun r hr => ?_⟩
      · exact (hhonours r w (htext ▸ hw) hr).whole.length_le
      · obtain hkind | ⟨hword, k, hk, heq⟩ :=
          (hhonours r _ (htext ▸ List.prefix_append _ _) hr).rank rfl
        · exact .inl hkind
        · exact .inr ⟨hword, Option.some.inj heq ▸ hk⟩
    · exact absurd (Option.some.inj hkind) hlegal
  · have hnone : ∀ (r : Rule) (w : List Char), w <+: c :: cs → ¬ r.Matches w := fun r w hw hr =>
      (hhonours r w hw hr).legal (congrArg some hillegal)
    obtain ⟨r, -, hr, -⟩ | ⟨-, hstray⟩ := hlawful
    · exact absurd hr (hnone r _ (htext ▸ List.prefix_append _ _))
    · exact ⟨fun r w hw => hnone r w (htext ▸ hw), hstray⟩

/-- A keyword is made by its own rule only. -/
theorem Rule.eq_mark_of_keyword {r : Rule} {k : Kind} (hr : r.kind? = some k)
    (hk : k ∈ Kind.keywords) : r = .mark k := by
  cases r with
  | mark j => exact congrArg Rule.mark (Option.some.inj hr)
  | blanks | newline | comment => cases hr
  | word | number | string =>
    cases hr
    exact absurd hk (by decide)

/-- A token is a keyword just if it is written as one. -/
theorem Cut.keyword_iff {t : Token} {rest : List Char} (h : t.Cut rest) {k : Kind}
    (hk : k ∈ Kind.keywords) : t.kind = k ↔ t.chars = k.text.toList := by
  constructor
  · rintro rfl
    have hlegal : ∀ k ∈ Kind.keywords, k ≠ .illegal := by decide
    obtain ⟨r, hkind, hr⟩ := (h.legal (hlegal _ hk)).rule
    obtain rfl := r.eq_mark_of_keyword hkind hk
    exact hr.2
  · intro htext
    have hmark : (Rule.mark k).Matches t.chars := ⟨List.mem_append_left _ hk, htext⟩
    have hlegal : t.kind ≠ .illegal := fun hillegal =>
      (h.illegal hillegal).none _ _ (List.prefix_append _ _) hmark
    obtain hkind | ⟨hword, -⟩ := (h.legal hlegal).rank _ hmark
    · exact (Option.some.inj hkind).symm
    · cases hword

/-! ## Sources -/

/-- The text of tokens with a gap behind each. -/
def layOut (parts : List (Token × List Char)) : List Char :=
  parts.flatMap fun part => part.1.chars ++ part.2

/-- The text is what the tokens and the gaps around them make up, and each token is cut as the
rules say from what stands behind the tokens before it. -/
def Parted (text : List Char) (tokens : List Token) : Prop :=
  ∃ (gap : List Char) (parts : List (Token × List Char)),
    parts.map Prod.fst = tokens ∧ text = gap ++ layOut parts ∧ Gap gap (layOut parts) ∧
      ∀ before t gap after, parts = before ++ (t, gap) :: after →
        Gap gap (layOut after) ∧ t.Cut (gap ++ layOut after)

/-- A further gap on the left. -/
theorem Parted.gap {r : Rule} {w text : List Char} {tokens : List Token} (hr : r.Matches w)
    (hkind : r.kind? = none) (hend : r = .comment → ∀ c ∈ text.head?, c = '\n')
    (h : Parted text tokens) : Parted (w ++ text) tokens := by
  obtain ⟨gap, parts, htokens, rfl, hgap, hparts⟩ := h
  exact ⟨w ++ gap, parts, htokens, by simp, hgap.of_matches hr hkind hend, hparts⟩

/-- A further token on the left. -/
theorem Parted.token {t : Token} {text : List Char} {tokens : List Token} (ht : t.Cut text)
    (h : Parted text tokens) : Parted (t.chars ++ text) (t :: tokens) := by
  obtain ⟨gap, parts, rfl, rfl, hgap, hparts⟩ := h
  refine ⟨[], (t, gap) :: parts, rfl, by simp [layOut], .nil, fun before u gap' after heq => ?_⟩
  cases before with
  | nil =>
    cases heq
    exact ⟨hgap, ht⟩
  | cons part before =>
    obtain ⟨-, rfl⟩ := List.cons.inj heq
    exact hparts before u gap' after rfl

/-- Cutting a text into pieces parts it into tokens. -/
theorem parted_pieces (line : Nat) (cs : List Char) : Parted cs (number line (pieces cs)) := by
  -- Along the cutting itself; a skipped piece joins the gap, a lexeme becomes a token.
  induction cs using pieces.induct generalizing line with
  | case1 =>
    rw [pieces_nil]
    exact ⟨[], [], rfl, rfl, .nil, by simp⟩
  | case2 c cs _ ih =>
    have hchars := Piece.chars_read c cs
    rw [pieces_cons]
    obtain ⟨p, rest, hread⟩ : ∃ p rest, Piece.read c cs = (p, rest) := ⟨_, _, rfl⟩
    rw [hread] at hchars ih ⊢
    cases p with
    | gap text =>
      have hlawful := Piece.lawful_read c cs
      rw [hread] at hlawful
      obtain ⟨r, hkind, hr, hend⟩ | ⟨hillegal, -⟩ := hlawful
      · exact hchars ▸ (ih _).gap hr hkind hend
      · cases hillegal
    | lexeme kind literal => exact hchars ▸ (ih _).token (cut_read line hread)

/-- **Every source is cut into its longest matches.**  A source is its tokens' texts with gaps
before, between and behind them; no text is empty; a token that is not illegal is the longest match
where it stands and has the kind of the rule that matches, a word being a keyword just if it is
written as one; and an illegal token stands only where no rule matches. -/
theorem ofSource_longest_match (source : String) :
    ∃ (gap : List Char) (parts : List (Token × List Char)),
      parts.map Prod.fst = (Stream.ofSource source).tokens ∧
      source.toList = gap ++ layOut parts ∧ Gap gap (layOut parts) ∧
      ∀ before t gap after, parts = before ++ (t, gap) :: after →
        Gap gap (layOut after) ∧ t.chars ≠ [] ∧
        (t.kind ≠ .illegal → t.Longest (gap ++ layOut after)) ∧
        (t.kind = .illegal → t.Unmatched (gap ++ layOut after)) ∧
        ∀ k ∈ Kind.keywords, t.kind = k ↔ t.chars = k.text.toList := by
  obtain ⟨gap, parts, htokens, htext, hgap, hparts⟩ := parted_pieces 1 source.toList
  refine ⟨gap, parts, htokens, htext, hgap, fun before t gap after heq => ?_⟩
  obtain ⟨hgap, hcut⟩ := hparts before t gap after heq
  exact ⟨hgap, hcut.nonempty, hcut.legal, hcut.illegal, fun k hk => hcut.keyword_iff hk⟩

/-- Of three equals signs the first two are taken together, and a keyword is no longer one when the
word goes on. -/
example : ((Stream.ofSource "iffy===if//\"").tokens.map fun t => (t.kind, t.literal)) =
    [(.identifier, "iffy"), (.equalEqual, "=="), (.assign, "="), (.kwIf, "if")] := by
  with_unfolding_all rfl

end TreeWalk.Token
