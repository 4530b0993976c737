import MiningGame.Json.Reader
import MiningGame.Json.Writer

/-!
# Cutting a text into tokens

Written texts and integers are read back as single tokens: a text between its quotes
(`Token.read_writtenText`), and an integer as long as no character follows that a number could go
on with (`Token.read_writtenInt`). Pieces that spell tokens are put together to longer ones, with
blanks between them (`Spells.append`, `Spells.blanks`), and reading a text feeds the tokens that it
is cut into (`Cut.run`).
-/

namespace MiningGame.Json

/-! ## Texts -/

theorem hexValue?_control : ∀ n < 0x20,
    Text.hexValue? ['0', '0', Nat.digitChar (n / 16), Nat.digitChar (n % 16)] = some n := by
  decide

theorem readUnits_writtenChar (c : Char) (units : List Nat) (rest : List Char) :
    readUnits units (writtenChar c ++ rest) = readUnits (c.toNat :: units) rest := by
  unfold writtenChar
  split
  · next h => simp [h, readUnits, escaped?]
  split
  · next h => simp [h, readUnits, escaped?]
  split
  · next h => simp [h, readUnits, escaped?]
  split
  · next h => simp [h, readUnits, escaped?]
  split
  · next h => simp [h, readUnits, escaped?]
  split
  · next h => simp [h, readUnits, escaped?]
  split
  · next h => simp [h, readUnits, escaped?]
  split
  · next hcontrol =>
    simp only [List.cons_append, List.nil_append, readUnits, hexValue?_control c.toNat hcontrol]
  · next hquote hbackslash _ _ _ _ _ hcontrol =>
    rw [List.singleton_append, readUnits, if_neg hcontrol]
    · exact hquote
    · rintro _ _ _ _ _ rfl
      exact absurd rfl hbackslash
    · rintro _ _ rfl
      exact absurd rfl hbackslash

theorem readUnits_written (chars : List Char) (units : List Nat) (rest : List Char) :
    readUnits units (chars.flatMap writtenChar ++ '"' :: rest) =
      some (units.reverse ++ chars.map Char.toNat, rest) := by
  induction chars generalizing units with
  | nil => simp [readUnits]
  | cons c chars ih =>
    rw [List.flatMap_cons, List.append_assoc, readUnits_writtenChar, ih]
    simp

/-- The code points of characters have no surrogates among them. -/
theorem joinUnits_toNat (text chars : List Char) :
    joinUnits none chars (text.map Char.toNat) = some (chars.reverse ++ text) := by
  induction text generalizing chars with
  | nil => simp [joinUnits]
  | cons c text ih =>
    have hvalid : c.toNat < 0xd800 ∨ 0xdfff < c.toNat ∧ c.toNat < 0x110000 := c.valid
    have hhigh : isHighSurrogate c.toNat = false := by
      simp [isHighSurrogate]
      omega
    have hlow : isLowSurrogate c.toNat = false := by
      simp [isLowSurrogate]
      omega
    simp [joinUnits, hhigh, hlow, ih, Char.ofNat_toNat]

theorem Token.read_writtenText (text : String) (rest : List Char) :
    Token.read (writtenText text ++ rest) = some (.text (some text), rest) := by
  have hcut : writtenText text ++ rest =
      '"' :: (text.toList.flatMap writtenChar ++ '"' :: rest) := by
    simp [writtenText]
  have hread : readText (text.toList.flatMap writtenChar ++ '"' :: rest) =
      some (some text, rest) := by
    simp [readText, readUnits_written, joinUnits_toNat]
  rw [hcut, Token.read, hread]
  rfl

/-! ## Integers -/

/-- A number may go on with this character. -/
def continues (c : Char) : Bool := Text.isDigit c || c = '.' || c = 'e' || c = 'E'

/-- No number goes on with what follows. -/
def Breaks (rest : List Char) : Prop := ∀ c ∈ rest.head?, continues c = false

theorem breaks_cons {c : Char} (h : continues c = false) (rest : List Char) :
    Breaks (c :: rest) := by
  rintro _ ⟨⟩
  exact h

theorem continues_of_isBlank {c : Char} (h : isBlank c = true) : continues c = false := by
  simp only [isBlank, Bool.or_eq_true, decide_eq_true_eq] at h
  rcases h with ((rfl | rfl) | rfl) | rfl <;> rfl

theorem isDigit_of_mem_toDigits {n : Nat} {c : Char} (h : c ∈ Nat.toDigits 10 n) :
    Text.isDigit c = true :=
  Nat.isDigit_of_mem_toDigits (by decide) (by decide) h

theorem exists_toDigits (n : Nat) :
    ∃ c digits, Nat.toDigits 10 n = c :: digits ∧ Text.isDigit c = true := by
  obtain ⟨c, digits, hdigits⟩ := List.exists_cons_of_ne_nil (@Nat.toDigits_ne_nil n 10)
  exact ⟨c, digits, hdigits, isDigit_of_mem_toDigits (hdigits ▸ List.mem_cons_self)⟩

/-- The digits of a number start with a zero only if there are no others. -/
theorem head?_toDigits {n : Nat} (h : (Nat.toDigits 10 n).head? = some '0') : n = 0 := by
  induction n using Nat.strongRecOn with
  | ind n ih =>
    by_cases hsmall : n < 10
    · rw [Nat.toDigits_of_lt_base hsmall] at h
      exact Nat.digitChar_eq_zero.1 (Option.some.inj h)
    · obtain ⟨c, digits, hdigits, -⟩ := exists_toDigits (n / 10)
      rw [Nat.toDigits_of_base_le (by decide) (by omega), hdigits] at h
      have hzero := ih (n / 10) (by omega) (hdigits ▸ h)
      omega

theorem takeDigits?_toDigits {rest : List Char} (n : Nat) (h : Breaks rest) :
    takeDigits? (Nat.toDigits 10 n ++ rest) = some (Nat.toDigits 10 n, rest) := by
  have hrest : rest.takeWhile Text.isDigit = [] := by
    cases rest with
    | nil => rfl
    | cons c rest =>
      have hc := h c rfl
      simp only [continues, Bool.or_eq_false_iff] at hc
      simp [hc.1.1.1]
  have htake : (Nat.toDigits 10 n ++ rest).takeWhile Text.isDigit = Nat.toDigits 10 n := by
    rw [List.takeWhile_append_of_pos fun c hc ↦ isDigit_of_mem_toDigits hc, hrest,
      List.append_nil]
  have hsome : (Nat.toDigits 10 n).isEmpty = false := by
    simp [Nat.toDigits_ne_nil]
  simp [takeDigits?, htake, hsome]

theorem readWhole_toDigits {rest : List Char} (n : Nat) (h : Breaks rest) :
    readWhole (Nat.toDigits 10 n ++ rest) = some (Nat.toDigits 10 n, rest) := by
  have hzero : ¬((Nat.toDigits 10 n).head? = some '0' ∧ 1 < (Nat.toDigits 10 n).length) := by
    rintro ⟨hhead, hlong⟩
    obtain rfl := head?_toDigits hhead
    exact absurd hlong (by decide)
  simp [readWhole, takeDigits?_toDigits n h, hzero]

theorem readFraction_of_breaks {rest : List Char} (h : Breaks rest) :
    readFraction rest = some ([], rest) := by
  unfold readFraction
  split
  · exact absurd (h '.' rfl) (by decide)
  · rfl

theorem readExponent_of_breaks {rest : List Char} (h : Breaks rest) :
    readExponent rest = some (none, rest) := by
  unfold readExponent
  split
  · exact absurd (h 'e' rfl) (by decide)
  · exact absurd (h 'E' rfl) (by decide)
  · rfl

theorem readNumber_toDigits {rest : List Char} (negative : Bool) (n : Nat) (h : Breaks rest) :
    ∃ spelling, readNumber negative (Nat.toDigits 10 n ++ rest) =
      some ((Numeral.mk negative (Nat.toDigits 10 n) [] none spelling).value, rest) := by
  unfold readNumber
  rw [readWhole_toDigits n h]
  dsimp only [bind, Option.bind]
  rw [readFraction_of_breaks h]
  dsimp only
  rw [readExponent_of_breaks h]
  exact ⟨_, rfl⟩

/-- An integer with a form of its own on the wire: it fits a word or a signed word. -/
def Fits (n : Int) : Prop := -0x8000000000000000 ≤ n ∧ n < 0x10000000000000000

theorem value_natural {n : Nat} (h : n < UInt64.size) (spelling : List Char) :
    (Numeral.mk false (Nat.toDigits 10 n) [] none spelling).value = int n := by
  simp [Numeral.value, digitsValue, Nat.ofDigitChars_ten_toDigits, h]

theorem value_negative {n : Nat} (hpos : 0 < n) (h : n ≤ 0x8000000000000000)
    (spelling : List Char) :
    (Numeral.mk true (Nat.toDigits 10 n) [] none spelling).value = int (-n) := by
  simp [Numeral.value, digitsValue, Nat.ofDigitChars_ten_toDigits, hpos, h]

/-- A text that starts with a digit can only be a number. -/
theorem Token.read_of_isDigit {c : Char} (h : Text.isDigit c = true) (rest : List Char) :
    Token.read (c :: rest) =
      (readNumber false (c :: rest)).map fun (value, rest') ↦ (atom value, rest') := by
  rw [Token.read]
  · exact List.cons_ne_nil c rest
  -- None of the other tokens starts with a digit.
  all_goals
    rintro _ ⟨⟩
    exact absurd h (by decide)

theorem Token.read_writtenInt {n : Int} {rest : List Char} (hn : Fits n) (h : Breaks rest) :
    Token.read (writtenInt n ++ rest) = some (.atom (int n), rest) := by
  obtain ⟨hlower, hupper⟩ := hn
  unfold writtenInt
  split
  · next hneg =>
    obtain ⟨spelling, hread⟩ := readNumber_toDigits true n.natAbs h
    have hint : -(n.natAbs : Int) = n := by omega
    rw [List.cons_append, Token.read, hread, value_negative (by omega) (by omega), hint]
    rfl
  · next hneg =>
    obtain ⟨spelling, hread⟩ := readNumber_toDigits false n.natAbs h
    have hint : (n.natAbs : Int) = n := by omega
    have hfits : n.natAbs < UInt64.size := by
      rw [UInt64.size]
      omega
    obtain ⟨c, digits, hdigits, hc⟩ := exists_toDigits n.natAbs
    rw [hdigits, List.cons_append, Token.read_of_isDigit hc, ← List.cons_append, ← hdigits, hread,
      value_natural hfits, hint]
    rfl

/-! ## Texts cut into tokens -/

/-- The tokens that a text is cut into, with any blanks before them. -/
inductive Cut : List Char → List Token → Prop
  | nil : Cut [] []
  | blank {c : Char} {cs : List Char} {ts : List Token} (hc : isBlank c = true) (h : Cut cs ts) :
      Cut (c :: cs) ts
  | token {c : Char} (word : List Char) {rest : List Char} {t : Token} {ts : List Token}
      (hc : isBlank c = false) (hread : Token.read (c :: word ++ rest) = some (t, rest))
      (h : Cut rest ts) : Cut (c :: word ++ rest) (t :: ts)

/-- Reading a text feeds its tokens one after the other. -/
theorem Cut.run {cs : List Char} {ts : List Token} (h : Cut cs ts) {fuel : Nat}
    (hfuel : cs.length < fuel) (p : Progress) :
    Progress.run fuel p cs = (ts.foldlM Progress.feed p).bind Progress.result? := by
  induction h generalizing fuel p with
  | nil =>
    obtain ⟨fuel, rfl⟩ := Nat.exists_eq_succ_of_ne_zero (Nat.ne_of_gt hfuel)
    rfl
  | @blank c cs ts hc h ih =>
    obtain ⟨fuel, rfl⟩ := Nat.exists_eq_succ_of_ne_zero (Nat.ne_of_gt (Nat.zero_lt_of_lt hfuel))
    have hskip : Progress.run (fuel + 1) p (c :: cs) = Progress.run (fuel + 1) p cs := by
      simp only [Progress.run, List.dropWhile_cons, hc, if_true]
    rw [hskip]
    exact ih (Nat.lt_of_succ_lt hfuel) p
  | @token c word rest t ts hc hread h ih =>
    obtain ⟨fuel, rfl⟩ := Nat.exists_eq_succ_of_ne_zero (Nat.ne_of_gt (Nat.zero_lt_of_lt hfuel))
    have hrest : rest.length < fuel := by
      simp only [List.length_append, List.length_cons] at hfuel
      omega
    rw [List.cons_append] at hread ⊢
    have hstep : Progress.run (fuel + 1) p (c :: (word ++ rest)) =
        (p.feed t).bind fun p' ↦ Progress.run fuel p' rest := by
      cases hfeed : p.feed t <;> simp [Progress.run, hc, hread, hfeed]
    rw [hstep, List.foldlM_cons]
    cases p.feed t with
    | none => rfl
    | some p' => exact ih hrest p'

theorem Cut.blanks {cs : List Char} {ts : List Token} (h : Cut cs ts) {blanks : List Char}
    (hblanks : ∀ c ∈ blanks, isBlank c = true) : Cut (blanks ++ cs) ts := by
  induction blanks with
  | nil => exact h
  | cons c blanks ih =>
    have hrest := ih fun c' hc' ↦ hblanks c' (List.mem_cons_of_mem c hc')
    exact .blank (hblanks c List.mem_cons_self) hrest

/-- Before anything that no number goes on with, a piece of text is cut into some tokens. -/
def Spells (word : List Char) (ts : List Token) : Prop :=
  ∀ rest ts', Breaks rest → Cut rest ts' → Cut (word ++ rest) (ts ++ ts')

/-- No number goes on with a piece of text, whatever follows it. -/
def Parts (word : List Char) : Prop := ∃ c cs, word = c :: cs ∧ continues c = false

theorem Parts.cons {c : Char} (h : continues c = false) (cs : List Char) : Parts (c :: cs) :=
  ⟨c, cs, rfl, h⟩

theorem Parts.breaks {word : List Char} (h : Parts word) (rest : List Char) :
    Breaks (word ++ rest) := by
  obtain ⟨c, cs, rfl, hc⟩ := h
  exact breaks_cons hc (cs ++ rest)

namespace Spells

variable {word word' : List Char} {ts ts' : List Token}

theorem append (h : Spells word ts) (h' : Spells word' ts') (hparts : Parts word') :
    Spells (word ++ word') (ts ++ ts') := by
  intro rest ts₀ hbreaks hcut
  rw [List.append_assoc, List.append_assoc]
  exact h _ _ (hparts.breaks rest) (h' rest ts₀ hbreaks hcut)

/-- A token of a single character, whatever follows it. -/
theorem mark {c : Char} {t : Token} (hc : isBlank c = false)
    (hread : ∀ rest, Token.read (c :: rest) = some (t, rest)) (h : Spells word ts) :
    Spells (c :: word) (t :: ts) := by
  intro rest ts₀ hbreaks hcut
  exact .token [] hc (hread (word ++ rest)) (h rest ts₀ hbreaks hcut)

theorem nil : Spells [] [] := fun _ _ _ hcut ↦ hcut

theorem blanks (h : Spells word ts) (blanks : List Char)
    (hblanks : ∀ c ∈ blanks, isBlank c = true) : Spells (blanks ++ word) ts := by
  intro rest ts₀ hbreaks hcut
  rw [List.append_assoc]
  exact (h rest ts₀ hbreaks hcut).blanks hblanks

theorem writtenText (text : String) : Spells (writtenText text) [.text (some text)] :=
  fun rest _ _ hcut ↦ .token _ rfl (Token.read_writtenText text rest) hcut

theorem writtenInt {n : Int} (hn : Fits n) : Spells (writtenInt n) [.atom (int n)] := by
  intro rest ts₀ hbreaks hcut
  have hread := Token.read_writtenInt hn hbreaks
  have hhead : ∃ c word, Json.writtenInt n = c :: word ∧ isBlank c = false := by
    unfold Json.writtenInt
    split
    · exact ⟨'-', _, rfl, rfl⟩
    · obtain ⟨c, digits, hdigits, hc⟩ := exists_toDigits n.natAbs
      refine ⟨c, digits, hdigits, Bool.eq_false_iff.2 fun hblank ↦ ?_⟩
      have hcontinues := continues_of_isBlank hblank
      simp [continues, hc] at hcontinues
  obtain ⟨c, word, hword, hc⟩ := hhead
  rw [hword] at hread ⊢
  exact .token word hc hread hcut

end Spells

end MiningGame.Json
