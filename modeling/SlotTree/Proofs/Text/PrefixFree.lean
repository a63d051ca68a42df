import Mathlib
import SlotTree.Value

/-! # Codes that end by themselves

A code is prefix-free if a text tells which word of the code it starts with, and so where that word
ends. The escapes of a record are such a code, and so are quoted texts, and values with a comma
after them.
-/

namespace SlotTree.Text

universe u

variable {α : Type u}

/-- Two words of the code at the start of one text are the same word, for the same thing. -/
def PrefixFree (code : α → List Char) : Prop :=
  ∀ ⦃a b : α⦄ ⦃x y : List Char⦄, code a ++ x = code b ++ y → a = b ∧ x = y

theorem bne_of_stop {body : List Char} {stop : Char} (hstop : stop ∉ body) :
    ∀ c ∈ body, c != stop := by
  intro c hc
  have hne : c ≠ stop := by
    rintro rfl
    exact hstop hc
  simpa using hne

theorem takeWhile_stop {body : List Char} {stop : Char} (hstop : stop ∉ body) (x : List Char) :
    (body ++ stop :: x).takeWhile (· != stop) = body := by
  simp [List.takeWhile_append_of_pos (bne_of_stop hstop)]

theorem dropWhile_stop {body : List Char} {stop : Char} (hstop : stop ∉ body) (x : List Char) :
    (body ++ stop :: x).dropWhile (· != stop) = stop :: x := by
  simp [List.dropWhile_append_of_pos (bne_of_stop hstop)]

theorem prefixFree_of_read {code : α → List Char} (read : List Char → Option (α × List Char))
    (hread : ∀ a x, read (code a ++ x) = some (a, x)) : PrefixFree code := by
  intro a b x y heq
  have hsame : some (a, x) = some (b, y) := by rw [← hread a x, heq, hread b y]
  exact Prod.mk.inj (Option.some.inj hsame)

/-- Words that end with a sign that stands nowhere else in them. -/
theorem prefixFree_concat {body : α → List Char} (hbody : Function.Injective body) {stop : Char}
    (hstop : ∀ a, stop ∉ body a) : PrefixFree fun a => body a ++ [stop] := by
  intro a b x y heq
  simp only [List.append_assoc, List.singleton_append] at heq
  have hab : body a = body b := by
    rw [← takeWhile_stop (hstop a) x, heq, takeWhile_stop (hstop b) y]
  rw [hab, List.append_cancel_left_eq, List.cons.injEq] at heq
  exact ⟨hbody hab, heq.2⟩

/-- Sequences of words that end with a sign that no word starts with. -/
theorem PrefixFree.flatMap_concat {code : α → List Char} (hcode : PrefixFree code) {stop : Char}
    (hstart : ∀ a, ∃ c rest, code a = c :: rest ∧ c ≠ stop) :
    PrefixFree fun as : List α => as.flatMap code ++ [stop] := by
  intro as bs x y heq
  simp only [List.append_assoc, List.singleton_append] at heq
  induction as generalizing bs with
  | nil =>
      cases bs with
      | nil => exact ⟨rfl, List.tail_eq_of_cons_eq heq⟩
      | cons b bs =>
          obtain ⟨c, rest, hb, hne⟩ := hstart b
          rw [List.flatMap_cons, hb] at heq
          exact absurd (List.head_eq_of_cons_eq heq).symm hne
  | cons a as ih =>
      cases bs with
      | nil =>
          obtain ⟨c, rest, ha, hne⟩ := hstart a
          rw [List.flatMap_cons, ha] at heq
          exact absurd (List.head_eq_of_cons_eq heq) hne
      | cons b bs =>
          rw [List.flatMap_cons, List.flatMap_cons, List.append_assoc, List.append_assoc] at heq
          obtain ⟨rfl, hlater⟩ := hcode heq
          obtain ⟨rfl, hrest⟩ := ih hlater
          exact ⟨rfl, hrest⟩

/-! ## Digits -/

/-- The number that a digit stands for. -/
def hexValue (c : Char) : Nat :=
  ['0', '1', '2', '3', '4', '5', '6', '7', '8', '9', 'a', 'b', 'c', 'd', 'e', 'f'].idxOf c

/-- The number that digits stand for. -/
def readHex (digits : List Char) : Nat := digits.foldl (fun n c => 16 * n + hexValue c) 0

theorem hexValue_digitChar : ∀ n < 16, hexValue n.digitChar = n := by decide

theorem hexDigits_eq (n : Nat) :
    hexDigits n = (if n < 16 then [] else hexDigits (n / 16)) ++ [(n % 16).digitChar] := by
  rw [hexDigits, Nat.toDigits_eq_if (by omega)]
  split
  · next hn => rw [Nat.mod_eq_of_lt hn, List.nil_append]
  · rfl

theorem readHex_hexDigits (n : Nat) : readHex (hexDigits n) = n := by
  induction n using Nat.strongRecOn with
  | ind n ih =>
      have hlast : hexValue (n % 16).digitChar = n % 16 := hexValue_digitChar _ (by omega)
      rw [hexDigits_eq, readHex, List.foldl_append, List.foldl_cons, List.foldl_nil, hlast]
      split
      · next hn => simp [Nat.mod_eq_of_lt hn]
      · have hfront := ih (n / 16) (by omega)
        rw [readHex] at hfront
        omega

theorem brace_not_mem_hexDigits (n : Nat) : '\x7d' ∉ hexDigits n := by
  induction n using Nat.strongRecOn with
  | ind n ih =>
      rw [hexDigits_eq, List.mem_append, List.mem_singleton, not_or]
      refine ⟨?_, (Nat.digitChar_ne '\x7d' (by decide)).symm⟩
      split
      · exact List.not_mem_nil
      · exact ih (n / 16) (by omega)

/-! ## Escapes -/

/-- The characters that a record escapes by a sign, with their signs. -/
def escapeSigns : List (Char × Char) :=
  [('\x00', '0'), ('\t', 't'), ('\r', 'r'), ('\n', 'n'), ('"', '"'), ('\\', '\\')]

/-- A character is written as it is, by its sign or by its number. -/
theorem recordEscape_cases (c : Char) :
    (recordEscape c = [c] ∧ c ≠ '"' ∧ c ≠ '\\') ∨
    (∃ sign, recordEscape c = ['\\', sign] ∧ (c, sign) ∈ escapeSigns) ∨
    recordEscape c = ['\\', 'u', '\x7b'] ++ (hexDigits c.toNat ++ ['\x7d']) := by
  unfold recordEscape
  split
  · exact .inr (.inl ⟨'0', rfl, by decide⟩)
  · exact .inr (.inl ⟨'t', rfl, by decide⟩)
  · exact .inr (.inl ⟨'r', rfl, by decide⟩)
  · exact .inr (.inl ⟨'n', rfl, by decide⟩)
  · exact .inr (.inl ⟨'"', rfl, by decide⟩)
  · exact .inr (.inl ⟨'\\', rfl, by decide⟩)
  · next hquote hslash =>
      split
      · exact .inr (.inr rfl)
      · exact .inl ⟨rfl, hquote, hslash⟩

/-- Reads the character that a text starts with, and returns what follows. A sign is looked up only
where no number follows the backslash. -/
def readEscape : List Char → Option (Char × List Char)
  | '\\' :: 'u' :: '\x7b' :: rest =>
    some (Char.ofNat (readHex (rest.takeWhile (· != '\x7d'))),
      (rest.dropWhile (· != '\x7d')).tail)
  | '\\' :: sign :: rest => (escapeSigns.find? (·.2 == sign)).map fun p => (p.1, rest)
  | c :: rest => some (c, rest)
  | [] => none

theorem readEscape_sign {c sign : Char} (hsign : (c, sign) ∈ escapeSigns) (x : List Char) :
    readEscape ('\\' :: sign :: x) = some (c, x) := by
  simp only [escapeSigns, List.mem_cons, Prod.mk.injEq, List.not_mem_nil, or_false] at hsign
  rcases hsign with ⟨rfl, rfl⟩ | ⟨rfl, rfl⟩ | ⟨rfl, rfl⟩ | ⟨rfl, rfl⟩ | ⟨rfl, rfl⟩ | ⟨rfl, rfl⟩ <;>
    rfl

theorem readEscape_recordEscape (c : Char) (x : List Char) :
    readEscape (recordEscape c ++ x) = some (c, x) := by
  rcases recordEscape_cases c with ⟨hc, _, hslash⟩ | ⟨sign, hc, hsign⟩ | hc
  · rw [hc, List.singleton_append, readEscape]
    · rintro _ rfl
      exact absurd rfl hslash
    · rintro _ _ rfl
      exact absurd rfl hslash
  · rw [hc]
    exact readEscape_sign hsign x
  · have hnumber := brace_not_mem_hexDigits c.toNat
    simp only [hc, List.append_assoc, List.cons_append, List.nil_append, readEscape,
      takeWhile_stop hnumber, dropWhile_stop hnumber, readHex_hexDigits, Char.ofNat_toNat,
      List.tail_cons]

theorem recordEscape_prefixFree : PrefixFree recordEscape :=
  prefixFree_of_read readEscape readEscape_recordEscape

/-- Only the escape of a quote could end a quoted text, and it starts with a backslash. -/
theorem recordEscape_eq_cons (c : Char) : ∃ d rest, recordEscape c = d :: rest ∧ d ≠ '"' := by
  rcases recordEscape_cases c with ⟨hc, hquote, _⟩ | ⟨sign, hc, _⟩ | hc
  · exact ⟨c, [], hc, hquote⟩
  · exact ⟨'\\', [sign], hc, by decide⟩
  · exact ⟨'\\', _, hc, by decide⟩

/-! ## Values -/

theorem quote_prefixFree : PrefixFree fun text => (quote recordEscape text).toList := by
  intro s t x y heq
  have hbody := recordEscape_prefixFree.flatMap_concat recordEscape_eq_cons
  simp only [quote, String.toList_ofList, List.cons_append, List.cons.injEq, true_and] at heq
  obtain ⟨htext, hrest⟩ := hbody heq
  exact ⟨String.toList_inj.1 htext, hrest⟩

theorem not_mem_toString_int {c : Char} (hdigit : c.isDigit = false) (hminus : c ≠ '-') (n : Int) :
    c ∉ (toString n).toList := by
  have hnat : ∀ m : Nat, c ∉ m.repr.toList := by
    intro m hc
    rw [Nat.toList_repr] at hc
    have hc := Nat.isDigit_of_mem_toDigits (by omega) (by omega) hc
    rw [hdigit] at hc
    nomatch hc
  rw [Int.toString_eq_repr, Int.repr_eq_if]
  split
  · exact hnat _
  · rw [String.toList_append, List.mem_append, not_or]
    exact ⟨by simpa using hminus, hnat _⟩

theorem toString_int_injective : Function.Injective fun n : Int => (toString n).toList := by
  intro m n heq
  simp only [Int.toString_eq_repr, String.toList_inj] at heq
  exact Int.repr_injective heq

/-- An integer with a comma after it starts no text that a quoted text starts. -/
theorem int_append_ne_quote (n : Int) (text : String) (x y : List Char) :
    (toString n).toList ++ ',' :: x ≠ (quote recordEscape text).toList ++ y := by
  intro heq
  have hquote : '"' ∉ (toString n).toList := not_mem_toString_int (by decide) (by decide) n
  rw [quote, String.toList_ofList] at heq
  cases hn : (toString n).toList with
  | nil =>
      rw [hn] at heq
      simp at heq
  | cons c rest =>
      rw [hn, List.cons_append, List.cons_append] at heq
      rw [hn, List.head_eq_of_cons_eq heq] at hquote
      exact hquote List.mem_cons_self

/-- A value with a comma after it ends there, and an integer is no quoted text. -/
theorem eq_of_literal_append {v w : Value} {x y : List Char}
    (heq : (v.literal recordEscape).toList ++ ',' :: x =
      (w.literal recordEscape).toList ++ ',' :: y) : v = w ∧ x = y := by
  cases v with
  | int m =>
      cases w with
      | int n =>
          have hint : PrefixFree fun n : Int => (toString n).toList ++ [','] :=
            prefixFree_concat toString_int_injective (not_mem_toString_int (by decide) (by decide))
          rw [List.append_cons, List.append_cons _ ',' y] at heq
          obtain ⟨rfl, hrest⟩ := hint heq
          exact ⟨rfl, hrest⟩
      | str t => exact absurd heq (int_append_ne_quote m t _ _)
  | str s =>
      cases w with
      | int n => exact absurd heq.symm (int_append_ne_quote n s _ _)
      | str t =>
          obtain ⟨rfl, hrest⟩ := quote_prefixFree heq
          exact ⟨rfl, List.tail_eq_of_cons_eq hrest⟩

end SlotTree.Text
