import HostScript.Proofs.NumeralTokens

/-!
# Texts and characters as tokens

Between quotes a character stands for itself, or it is denoted by a backslash and a letter. However the characters of
a text are written (`WrittenAll`), the literal is read as one token that denotes the text and spans the literal
(`quoted_literals_round_trip`).
-/

set_option autoImplicit false

namespace HostScript.Token

open Text

variable {c : Char}

/-- The letter that denotes a character after a backslash. -/
def escapeLetter? : Char → Option Char
  | '\n' => some 'n'
  | '\r' => some 'r'
  | '\t' => some 't'
  | '\x00' => some '0'
  | '\'' => some '\''
  | '"' => some '"'
  | '\\' => some '\\'
  | _ => none

/-- The ways to write a character inside quotes. -/
inductive Written (quote : Char) : Char → List Char → Prop
  | plain {c : Char} (hquote : c ≠ quote) (hslash : c ≠ '\\') (hfeed : c ≠ '\n') : Written quote c [c]
  | escaped {c letter : Char} (h : escapeLetter? c = some letter) : Written quote c ['\\', letter]

/-- The ways to write characters one after another. -/
inductive WrittenAll (quote : Char) : List Char → List Char → Prop
  | nil : WrittenAll quote [] []
  | cons {c : Char} {w s ws : List Char} (h : Written quote c w) (hs : WrittenAll quote s ws) :
    WrittenAll quote (c :: s) (w ++ ws)

section Writing

variable {quote : Char}

theorem exists_written (hquote : (escapeLetter? quote).isSome = true) (c : Char) : ∃ w, Written quote c w := by
  cases h : escapeLetter? c with
  | some letter => exact ⟨_, .escaped h⟩
  | none =>
    refine ⟨_, .plain ?_ ?_ ?_⟩ <;> rintro rfl
    · simp [h] at hquote
    · cases h
    · cases h

theorem exists_writtenAll (hquote : (escapeLetter? quote).isSome = true) (s : List Char) :
    ∃ ws, WrittenAll quote s ws := by
  induction s with
  | nil => exact ⟨_, .nil⟩
  | cons c s ih =>
    obtain ⟨w, hw⟩ := exists_written hquote c
    obtain ⟨ws, hws⟩ := ih
    exact ⟨_, .cons hw hws⟩

/-- Reading an escape gives back the character that it was written for. -/
theorem escaped?_escapeLetter? {letter : Char} (h : escapeLetter? c = some letter) : escaped? letter = some c := by
  unfold escapeLetter? at h
  split at h <;> cases h <;> rfl

end Writing

/-! ## Reading what is between the quotes -/

theorem scanText_written {s ws : List Char} (h : WrittenAll '"' s ws) (before value rest : List Char) :
    scanText before value (ws ++ '"' :: rest) =
      .token (.text (String.ofList (value.reverse ++ s))) (before.reverse ++ (ws ++ ['"'])) rest := by
  induction h generalizing before value with
  | nil => simp [scanText]
  | @cons c w s ws hw _ ih =>
    cases hw with
    | plain hquote hslash hfeed =>
      rw [List.cons_append, List.nil_append, List.cons_append, scanText, if_neg hfeed, ih]
      · simp
      · exact hquote
      · exact fun h _ => hslash h
      · exact fun _ _ h _ => hslash h
    | escaped hletter =>
      simp only [List.cons_append, List.nil_append, scanText, escaped?_escapeLetter? hletter, ih]
      simp

theorem scanChar_written {w : List Char} (h : Written '\'' c w) (rest : List Char) :
    scanChar (w ++ '\'' :: rest) = .token (.char c) ('\'' :: (w ++ ['\''])) rest := by
  cases h with
  | plain hquote hslash hfeed =>
    rw [List.cons_append, List.nil_append, scanChar]
    · rfl
    · exact hquote
    · exact hfeed
    · exact fun h _ => hslash h
    · exact fun _ _ h _ => hslash h
  | escaped hletter =>
    simp only [List.cons_append, List.nil_append, scanChar, escaped?_escapeLetter? hletter]
    rfl

/-! ## Literals -/

/-- What is written between quotes, with them. -/
def quoted (quote : Char) (ws : List Char) : String := String.ofList (quote :: (ws ++ [quote]))

/-- The stream of a text that is one token. -/
def Stream.sole (kind : Token.Kind) (source : String) : Stream :=
  ⟨[⟨kind, source, ⟨0, byteLength source.toList⟩⟩], .complete (byteLength source.toList)⟩

/-- A text that is read as a token with nothing left over. -/
theorem scan_sole {cs : List Char} {kind : Token.Kind} (hblank : isBlank c = false)
    (hslash : c ≠ '/') (h : scanToken c cs = .token kind (c :: cs) []) :
    scan (String.ofList (c :: cs)) = .sole kind (String.ofList (c :: cs)) := by
  unfold scan Stream.sole
  rw [String.toList_ofList]
  refine (streamOf_token hblank hslash h).trans ?_
  rw [Nat.zero_add]
  rfl

/-- **Quoted literals denote what was written.** However the characters of a text are written between double quotes, the
literal is one token that denotes the text and spans the literal, and nothing follows it; the same holds for a single
character between single quotes. Every text and every character can be written. -/
theorem quoted_literals_round_trip :
    (∀ s : List Char, (∃ ws, WrittenAll '"' s ws) ∧
      ∀ ws, WrittenAll '"' s ws → scan (quoted '"' ws) = .sole (.text (String.ofList s)) (quoted '"' ws)) ∧
    ∀ c : Char, (∃ w, Written '\'' c w) ∧ ∀ w, Written '\'' c w →
      scan (quoted '\'' w) = .sole (.char c) (quoted '\'' w) := by
  refine ⟨fun s => ⟨exists_writtenAll rfl s, fun ws h => ?_⟩, fun c => ⟨exists_written rfl c, fun w h => ?_⟩⟩
  · exact scan_sole (by decide) (by decide) (scanText_written h ['"'] [] [])
  · exact scan_sole (by decide) (by decide) (scanChar_written h [])

/-- A quote and a tab, once written as they are and once escaped. -/
theorem quoted_quote_and_tab :
    scan "\"'\\\"\t\\t\"" = .sole (.text "'\"\t\t") "\"'\\\"\t\\t\"" ∧ scan "'\\''" = .sole (.char '\'') "'\\''" := by
  obtain ⟨htext, hchar⟩ := quoted_literals_round_trip
  have hws : WrittenAll '"' ['\'', '"', '\t', '\t'] ['\'', '\\', '"', '\t', '\\', 't'] :=
    .cons (.plain (by decide) (by decide) (by decide)) <| .cons (.escaped rfl) <|
      .cons (.plain (by decide) (by decide) (by decide)) <| .cons (.escaped rfl) .nil
  exact ⟨(htext _).2 _ hws, (hchar _).2 _ (.escaped rfl)⟩

end HostScript.Token
