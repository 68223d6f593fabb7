import Naskah.Proofs.Alike.Machine
import Naskah.Session.Status

/-!
# The lines of the diagnostics

Every message is one line, which begins with the number of a line of the
source. At related tokens of the same words only this number may differ.
-/

namespace Naskah

/-! ## Texts without newlines -/

def Inline (s : String) : Prop := '\n' ∉ s.toList

theorem inline_ofList {cs : List Char} (h : '\n' ∉ cs) : Inline (String.ofList cs) := by
  rw [Inline, String.toList_ofList]
  exact h

theorem inline_append {s t : String} : Inline (s ++ t) ↔ Inline s ∧ Inline t := by
  rw [Inline, String.toList_append, List.mem_append, not_or]
  rfl

theorem newline_not_mem_toDigits (n : Nat) : '\n' ∉ Nat.toDigits 10 n := by
  intro hmem
  have hdigit : Char.isDigit '\n' = true := Nat.isDigit_of_mem_toDigits (by decide) (by decide) hmem
  cases hdigit

theorem inline_nat (n : Nat) : Inline (toString n) := by
  simpa [Inline, toString, Nat.repr] using newline_not_mem_toDigits n

theorem Expectation.inline_text (x : Expectation) : Inline x.text := by
  cases x <;> exact inline_ofList (by decide)

theorem ValueKind.inline_name (k : ValueKind) : Inline k.name := by
  cases k <;> exact inline_ofList (by decide)

theorem BinaryOp.inline_spelling (op : BinaryOp) : Inline op.spelling := by
  cases op <;> exact inline_ofList (by decide)

theorem Sink.inline_closedReason : Inline Sink.closedReason :=
  inline_ofList (by decide)

theorem Token.inline_shown {t : Token} (h : Inline t.lexeme) : Inline t.shown := by
  unfold Token.shown
  split
  · exact inline_ofList (by decide)
  · simp only [inline_append, and_assoc]
    exact ⟨inline_ofList (by decide), h, inline_ofList (by decide)⟩

theorem Fault.inline_details {f : Fault} (h : Inline f.token.lexeme) (hknown : f.cause.Known) :
    Inline f.details := by
  unfold Fault.details
  split
  · simp only [inline_append, and_assoc]
    exact ⟨inline_ofList (by decide), ValueKind.inline_name _, inline_ofList (by decide),
      ValueKind.inline_name _, inline_ofList (by decide)⟩
  · simp only [inline_append, and_assoc]
    exact ⟨inline_ofList (by decide), BinaryOp.inline_spelling _, inline_ofList (by decide),
      ValueKind.inline_name _,
      inline_ofList (by decide), ValueKind.inline_name _, inline_ofList (by decide)⟩
  · simp only [inline_append, and_assoc]
    exact ⟨inline_ofList (by decide), ValueKind.inline_name _, inline_ofList (by decide)⟩
  · simp only [inline_append, and_assoc]
    exact ⟨inline_ofList (by decide), h, inline_ofList (by decide)⟩
  · exact inline_ofList (by decide)
  · simp only [inline_append, and_assoc]
    exact ⟨inline_ofList (by decide), inline_nat _, inline_ofList (by decide), inline_nat _,
      inline_ofList (by decide)⟩
  · exact inline_ofList (by decide)
  · rename_i reason hcause
    rw [hcause] at hknown
    simp only [inline_append, and_assoc]
    exact ⟨inline_ofList (by decide), hknown ▸ Sink.inline_closedReason, inline_ofList (by decide)⟩

/-! ## Lines that differ in a number -/

/-- The same line twice, but for the number at its front. -/
def SameButNumber (l l' : String) : Prop :=
  Inline l ∧ Inline l' ∧
    ∃ (n n' : Nat) (text : String), l = "[line " ++ toString n ++ "]" ++ text ∧
      l' = "[line " ++ toString n' ++ "]" ++ text

theorem sameButNumber_of_inline {text : String} (h : Inline text) (n n' : Nat) :
    SameButNumber ("[line " ++ toString n ++ "]" ++ text)
      ("[line " ++ toString n' ++ "]" ++ text) := by
  have hline : ∀ k : Nat, Inline ("[line " ++ toString k ++ "]" ++ text) := by
    intro k
    simp only [inline_append, and_assoc]
    exact ⟨inline_ofList (by decide), inline_nat k, inline_ofList (by decide), h⟩
  exact ⟨hline n, hline n', n, n', text, rfl, rfl⟩

structure SameWord (t u : Token) : Prop where
  kind : t.kind = u.kind
  lexeme : t.lexeme = u.lexeme
  inline : Inline t.lexeme

theorem sameWord_ofWords : OfWords SameWord := ⟨SameWord.kind, SameWord.lexeme⟩

theorem SameWord.shown {t u : Token} (h : SameWord t u) : t.shown = u.shown := by
  rw [Token.shown, Token.shown, h.lexeme, isEnding_congr (congrArg Kind.bare h.kind)]

theorem SyntaxError.Alike.message {e e' : SyntaxError} (h : e.Alike SameWord e') :
    SameButNumber e.message e'.message := by
  obtain ⟨h⟩ := h
  rename_i t u x
  have htext : Inline (" Error at " ++ t.shown ++ ": " ++ x.text) := by
    simp only [inline_append, and_assoc]
    exact ⟨inline_ofList (by decide), Token.inline_shown h.inline, inline_ofList (by decide),
      x.inline_text⟩
  have hmessage : ∀ v : Token, (SyntaxError.unexpectedToken v x).message =
      "[line " ++ toString v.line ++ "]" ++ (" Error at " ++ v.shown ++ ": " ++ x.text) := by
    intro v
    simp only [SyntaxError.message, SyntaxError.about, String.append_assoc]
    rfl
  rw [hmessage, hmessage, ← h.shown]
  exact sameButNumber_of_inline htext _ _

theorem Fault.Alike.message {f g : Fault} (h : f.Alike SameWord g) :
    SameButNumber f.message g.message := by
  have hdetails : g.details = f.details := by
    simp only [Fault.details, h.cause, h.token.lexeme]
  have htext : Inline (" Runtime error at " ++ f.token.shown ++ ": " ++ f.details) := by
    simp only [inline_append, and_assoc]
    exact ⟨inline_ofList (by decide), Token.inline_shown h.token.inline, inline_ofList (by decide),
      Fault.inline_details h.token.inline h.known⟩
  have hmessage : ∀ k : Fault, k.message =
      "[line " ++ toString k.line ++ "]" ++
        (" Runtime error at " ++ k.token.shown ++ ": " ++ k.details) := by
    intro k
    simp only [Fault.message, String.append_assoc]
    rfl
  rw [hmessage, hmessage, ← h.token.shown, hdetails]
  exact sameButNumber_of_inline htext _ _

/-! ## Texts of lines -/

def linesText (ls : List String) : ByteArray := (String.join (ls.map (· ++ "\n"))).toUTF8

theorem linesText_concat (ls : List String) (l : String) :
    linesText (ls ++ [l]) = linesText ls ++ (l ++ "\n").toUTF8 := by
  simp [linesText]

theorem Sink.writeLine_unlimited (w : ByteArray) (text : String) :
    (⟨w, none⟩ : Sink).writeLine text = (⟨w ++ (text ++ "\n").toUTF8, none⟩, true) := by
  simp only [Sink.writeLine, Sink.write, Sink.room, ByteArray.extract_zero_size, decide_true]

def SameDiagnostics (d d' : Sink) : Prop :=
  ∃ ls ls', List.Forall₂ SameButNumber ls ls' ∧ d = ⟨linesText ls, none⟩ ∧
    d' = ⟨linesText ls', none⟩

theorem SameDiagnostics.writeLine {d d' : Sink} (h : SameDiagnostics d d') {l l' : String}
    (hl : SameButNumber l l') : SameDiagnostics (d.writeLine l).1 (d'.writeLine l').1 := by
  obtain ⟨ls, ls', hls, rfl, rfl⟩ := h
  refine ⟨ls ++ [l], ls' ++ [l'], List.rel_append hls (.cons hl .nil), ?_, ?_⟩
  · rw [Sink.writeLine_unlimited, linesText_concat]
  · rw [Sink.writeLine_unlimited, linesText_concat]

theorem SameDiagnostics.writeLines {d d' : Sink} (h : SameDiagnostics d d') {ls ls' : List String}
    (hls : List.Forall₂ SameButNumber ls ls') :
    SameDiagnostics (d.writeLines ls).1 (d'.writeLines ls').1 := by
  induction hls generalizing d d' with
  | nil => exact h
  | @cons l l' ls ls' hl _ ih =>
    have hnext := h.writeLine hl
    obtain ⟨_, _, _, rfl, rfl⟩ := h
    rw [Sink.writeLine_unlimited, Sink.writeLine_unlimited] at hnext
    rw [Sink.writeLines, Sink.writeLines, Sink.writeLine_unlimited, Sink.writeLine_unlimited]
    exact ih hnext

end Naskah
