import Mathlib.Algebra.Ring.Int.Defs
import Naskah.Proofs.Grammar.Braces
import Naskah.Proofs.Session.Runs
import Naskah.Session.Prompt

/-!
# Entries at the prompt

The braces of an entry are counted over its tokens, and a newline stands in no
token but ends one, so they may be counted line by line. An entry is handed to
the machine at the first line that leaves no brace open. One that the end of
the input leaves open is no program, and nothing of it is carried out.
-/

namespace Naskah

/-! ## Open braces -/

theorem braceBalance_take_nonneg {source : String}
    (h : (parse (tokenize source).tokens).errors = []) :
    (∀ n, 0 ≤ braceBalance ((tokenize source).tokens.take n)) ∧
    braceBalance (tokenize source).tokens = 0 := by
  have hending : (⟨.ending, "", 1 + source.toList.count '\n'⟩ : Token).kind = .ending := rfl
  rw [tokenize_tokens] at h ⊢
  generalize hparse : parse _ = parsed at h
  obtain ⟨ss, errors⟩ := parsed
  obtain rfl : errors = [] := h
  have hprogram := Grammar.program_of_parse tokensFrom_unended hending hparse
  have hbraced := hprogram.braced.append (Grammar.braced_singleton (Grammar.noBrace_ending hending))
  exact ⟨hbraced.front, hbraced.whole⟩

theorem needsMoreInput_iff {source : String} :
    needsMoreInput source = true ↔ 0 < braceBalance (tokenize source).tokens :=
  decide_eq_true_iff

theorem not_clean_of_needsMoreInput {source : String} (h : needsMoreInput source = true) :
    ¬ Clean source := by
  intro hclean
  rw [needsMoreInput_iff, (braceBalance_take_nonneg hclean.tree).2] at h
  exact lt_irrefl 0 h

/-- **The prompt withholds no program.** In a source that is read without errors
no brace is closed before it is open, and none stays open. So a source with an
open brace is refused on every machine, and nothing of it is carried out. -/
theorem valid_program_not_withheld (source : String) :
    ((parse (tokenize source).tokens).errors = [] →
      (∀ front, front <+: (tokenize source).tokens →
        front.countP (·.isMark .rightBrace) ≤ front.countP (·.isMark .leftBrace)) ∧
      (tokenize source).tokens.countP (·.isMark .leftBrace) =
        (tokenize source).tokens.countP (·.isMark .rightBrace) ∧
      needsMoreInput source = false) ∧
    (needsMoreInput source = true → ∀ (m : Machine) fuel, ∃ diagnostics,
      m.run fuel source = some (.syntaxError, { m with diagnostics })) := by
  refine ⟨fun h => ?_, fun h m fuel => ⟨_, m.run_of_not_clean (not_clean_of_needsMoreInput h) fuel⟩⟩
  obtain ⟨hfront, hwhole⟩ := braceBalance_take_nonneg h
  refine ⟨fun front hprefix => ?_, ?_, ?_⟩
  · have hn := hfront front.length
    rw [← List.prefix_iff_eq_take.mp hprefix] at hn
    simp only [braceBalance] at hn
    omega
  · simp only [braceBalance] at hwhole
    omega
  · rw [Bool.eq_false_iff, ne_eq, needsMoreInput_iff, hwhole]
    exact lt_irrefl 0

/-- A function with a branch in it, and the same function cut before its last brace. -/
theorem valid_program_not_withheld_function :
    let whole := "fungsi f(a) \x7b jika a \x7b cetak \"\x7b\"; \x7d \x7d"
    let cut := "fungsi f(a) \x7b jika a \x7b cetak \"\x7d\"; \x7d // \x7d"
    (parse (tokenize whole).tokens).errors = [] ∧ needsMoreInput whole = false ∧
      needsMoreInput cut = true ∧
      ∀ (m : Machine) fuel, ∃ diagnostics,
        m.run fuel cut = some (.syntaxError, { m with diagnostics }) := by
  intro whole cut
  have hwhole : (parse (tokenize whole).tokens).errors = [] :=
    List.isEmpty_iff.mp (by decide +kernel)
  have hcut : needsMoreInput cut = true := by decide +kernel
  exact ⟨hwhole, ((valid_program_not_withheld whole).1 hwhole).2.2, hcut,
    (valid_program_not_withheld cut).2 hcut⟩

/-! ## Braces line by line -/

def entryText (lines : List String) : String := String.join (lines.map (· ++ "\n"))

def linesBalance (lines : List String) : Int :=
  (lines.map fun line => braceBalance (tokenize line).tokens).sum

theorem braceBalance_below (n : Nat) (ts : List Token) :
    braceBalance (ts.map (Token.below n)) = braceBalance ts := by
  simp only [braceBalance, List.countP_map]
  rfl

theorem braceBalance_tokensFrom (line : Nat) (ps : List Piece) :
    braceBalance (Piece.tokensFrom line ps) = braceBalance (Piece.tokensFrom 0 ps) := by
  rw [← braceBalance_below line (Piece.tokensFrom 0 ps), ← Piece.tokensFrom_add, Nat.zero_add]

theorem braceBalance_tokenize (source : String) :
    braceBalance (tokenize source).tokens =
      braceBalance (Piece.tokensFrom 0 (Piece.split source.toList)) := by
  have hending : braceBalance [⟨.ending, "", 1 + source.toList.count '\n'⟩] = 0 :=
    braceBalance_other (Grammar.noBrace_ending rfl)
  rw [tokenize_tokens, braceBalance_append, hending, braceBalance_tokensFrom, Int.add_zero]

theorem braceBalance_tokenize_line (line text : String) :
    braceBalance (tokenize (line ++ "\n" ++ text)).tokens =
      braceBalance (tokenize line).tokens + braceBalance (tokenize text).tokens := by
  have hsplit : Piece.split (line ++ "\n" ++ text).toList =
      Piece.split line.toList ++ ⟨.newline, ['\n']⟩ :: Piece.split text.toList := by
    rw [← Piece.split_append_newline]
    simp
  simp only [braceBalance_tokenize]
  rw [hsplit, Piece.tokensFrom_append, newline_tokensFrom, braceBalance_append,
    braceBalance_tokensFrom (_ + 1)]

theorem braceBalance_entryText (lines : List String) :
    braceBalance (tokenize (entryText lines)).tokens = linesBalance lines := by
  induction lines with
  | nil => rfl
  | cons line lines ih =>
    have htext : entryText (line :: lines) = line ++ "\n" ++ entryText lines := by
      simp [entryText]
    rw [htext, braceBalance_tokenize_line, ih]
    simp [linesBalance]

theorem needsMoreInput_entryText {lines : List String} :
    needsMoreInput (entryText lines) = true ↔ 0 < linesBalance lines := by
  rw [needsMoreInput_iff, braceBalance_entryText]

/-! ## Entries -/

/-- Lines that leave a brace open from the first to the last. -/
def LeftOpen (lines : List String) : Prop :=
  ∀ front, front ≠ [] → front <+: lines → 0 < linesBalance front

/-- Lines of which the last is the first that leaves no brace open. -/
def ClosedEntry (lines : List String) : Prop :=
  ∃ before last, lines = before ++ [last] ∧ LeftOpen before ∧ linesBalance lines ≤ 0

/-- The entries that lines make up, and the lines of one that is not closed. -/
structure CutInto (lines : List String) (entries : List (List String))
    (rest : List String) : Prop where
  whole : entries.flatten ++ rest = lines
  closed : ∀ entry ∈ entries, ClosedEntry entry
  left : LeftOpen rest

theorem leftOpen_nil : LeftOpen [] :=
  fun _ hne hprefix => absurd (List.prefix_nil.mp hprefix) hne

theorem LeftOpen.concat {lines : List String} {line : String} (h : LeftOpen lines)
    (hline : 0 < linesBalance (lines ++ [line])) : LeftOpen (lines ++ [line]) := by
  intro front hne hprefix
  rcases List.prefix_concat_iff.mp hprefix with hfront | hfront
  · rw [hfront]
    exact hline
  · exact h front hne hfront

theorem LeftOpen.needsMoreInput {lines : List String} (h : LeftOpen lines) (hne : lines ≠ []) :
    needsMoreInput (entryText lines) = true :=
  needsMoreInput_entryText.mpr (h lines hne List.prefix_rfl)

theorem entryText_concat (lines : List String) (line : String) :
    entryText (lines ++ [line]) = entryText lines ++ line ++ "\n" := by
  simp [entryText, String.append_assoc]

theorem entryText_isEmpty (lines : List String) :
    (entryText lines).isEmpty = true ↔ lines = [] := by
  cases lines with
  | nil => simp [entryText]
  | cons line lines => simp [entryText]

/-! ## The lines of a text -/

theorem bytes_toList_loop (bytes : ByteArray) (i : Nat) (read : List UInt8) :
    ByteArray.toList.loop bytes i read = read.reverse ++ bytes.data.toList.drop i := by
  fun_induction ByteArray.toList.loop bytes i read with
  | case1 i read hi ih =>
    have hlength : i < bytes.data.toList.length := hi
    rw [ih, List.drop_eq_getElem_cons hlength, List.reverse_cons, List.append_assoc]
    simp [ByteArray.get!, hi, getElem!_pos]
  | case2 i read hi =>
    have hlength : bytes.data.toList.length ≤ i := Nat.le_of_not_lt hi
    rw [List.drop_of_length_le hlength, List.append_nil]

def utf8 (cs : List Char) : List UInt8 := cs.flatMap String.utf8EncodeChar

theorem utf8_append (cs ds : List Char) : utf8 (cs ++ ds) = utf8 cs ++ utf8 ds :=
  List.flatMap_append

theorem bytes_toList_utf8 (s : String) : s.toUTF8.toList = utf8 s.toList := by
  have hbytes : s.toByteArray = s.toList.utf8Encode := by
    rw [← String.toByteArray_ofList, String.ofList_toList]
  rw [ByteArray.toList, bytes_toList_loop, String.toUTF8_eq_toByteArray, hbytes]
  simp [List.utf8Encode, utf8]

theorem eq_newline_of_mem_encoding {c : Char} (h : 10 ∈ String.utf8EncodeChar c) : c = '\n' := by
  have hvalue : c.val.toNat = 10 := by
    revert h
    fun_cases String.utf8EncodeChar c
    all_goals
      intro h
      simp only [List.mem_cons, List.not_mem_nil, or_false, ← UInt8.toNat_inj, UInt8.toNat_ofNat',
        UInt8.reduceToNat] at h
      omega
  exact Char.ext (UInt32.toNat_inj.mp hvalue)

theorem newline_not_mem_utf8 {cs : List Char} (h : '\n' ∉ cs) : 10 ∉ utf8 cs := by
  intro hbyte
  obtain ⟨c, hc, hmem⟩ := List.mem_flatMap.mp hbyte
  exact h (eq_newline_of_mem_encoding hmem ▸ hc)

theorem byteLines_line {bytes : List UInt8} (h : 10 ∉ bytes) (rest : List UInt8) :
    byteLines (bytes ++ 10 :: rest) = (bytes ++ [10]) :: byteLines rest := by
  induction bytes with
  | nil => simp [byteLines]
  | cons b bytes ih =>
    obtain ⟨hb, hbytes⟩ := not_or.mp (mt List.mem_cons.mpr h)
    rw [List.cons_append, byteLines, if_neg (Ne.symm hb), ih hbytes]
    rfl

theorem byteLines_last {bytes : List UInt8} (h : 10 ∉ bytes) (hne : bytes ≠ []) :
    byteLines bytes = [bytes] := by
  induction bytes with
  | nil => exact absurd rfl hne
  | cons b bytes ih =>
    obtain ⟨hb, hbytes⟩ := not_or.mp (mt List.mem_cons.mpr h)
    rw [byteLines, if_neg (Ne.symm hb)]
    by_cases hmore : bytes = []
    · rw [hmore, byteLines]
    · rw [ih hbytes hmore]

def withoutReturn (cs : List Char) : List Char :=
  if cs.getLast? = some '\r' then cs.dropLast else cs

/-- The lines of a text. What stands behind its last newline is one if there is anything. -/
def textParts (text : String) : List String :=
  let parts := text.toList.splitOn '\n'
  (parts.dropLast.map withoutReturn ++ parts.getLast?.toList.filter (· ≠ [])).map String.ofList

theorem fromUTF8_utf8 (cs : List Char) :
    String.fromUTF8? ⟨(utf8 cs).toArray⟩ = some (String.ofList cs) := by
  have hbytes : (⟨(utf8 cs).toArray⟩ : ByteArray) = cs.utf8Encode := by
    apply ByteArray.ext
    apply Array.toList_inj.mp
    simp [List.utf8Encode, utf8]
  have hutf8 := @ByteArray.isValidUTF8_utf8Encode cs
  rw [hbytes, String.fromUTF8?, dif_pos hutf8, Option.some.injEq, ← String.toByteArray_inj,
    String.toByteArray_ofList]
  rfl

theorem Line.ofBytes_line (cs : List Char) :
    Line.ofBytes ⟨(utf8 cs ++ [10]).toArray⟩ = .text (String.ofList (withoutReturn cs)) := by
  have hbytes : utf8 cs ++ [10] = utf8 (cs ++ ['\n']) := (utf8_append cs ['\n']).symm
  rw [hbytes, Line.ofBytes, fromUTF8_utf8]
  simp only [String.toList_ofList, List.reverse_append, List.reverse_singleton,
    List.singleton_append]
  unfold withoutReturn
  rcases List.eq_nil_or_concat cs with rfl | ⟨front, c, rfl⟩
  · rfl
  · by_cases hc : c = '\r' 
    · simp [hc]
    · simp [hc]
      
theorem Line.ofBytes_last {cs : List Char} (h : '\n' ∉ cs) :
    Line.ofBytes ⟨(utf8 cs).toArray⟩ = .text (String.ofList cs) := by
  rw [Line.ofBytes, fromUTF8_utf8]
  rcases List.eq_nil_or_concat cs with rfl | ⟨front, c, rfl⟩
  · rfl
  · have hc : c ≠ '\n' := by rintro rfl; simp at h
    simp [hc]

theorem byteLines_utf8 (cs : List Char) :
    (byteLines (utf8 cs)).map (fun bytes => Line.ofBytes ⟨bytes.toArray⟩) =
      (textParts (String.ofList cs)).map .text := by
  by_cases hnewline : '\n' ∈ cs
  · obtain ⟨part, rest, hcs, hpart⟩ := List.eq_append_cons_of_mem hnewline
    have hbytes : utf8 cs = utf8 part ++ 10 :: utf8 rest := by
      rw [hcs, utf8_append]
      rfl
    have ih := byteLines_utf8 rest
    rw [hbytes, byteLines_line (newline_not_mem_utf8 hpart), List.map_cons, Line.ofBytes_line, ih]
    have hne := List.splitOn_ne_nil '\n' rest
    simp only [textParts, String.toList_ofList, hcs, List.splitOn_append_cons_self_of_not_mem hpart]
    rw [List.dropLast_cons_of_ne_nil hne, List.getLast?_cons, List.getLast?_eq_some_getLast hne]
    simp
  · have hparts : textParts (String.ofList cs) = if cs = [] then [] else [String.ofList cs] := by
      simp only [textParts, String.toList_ofList, List.splitOn_eq_singleton hnewline]
      by_cases hcs : cs = [] <;> simp [hcs]
    rw [hparts]
    by_cases hcs : cs = []
    · simp [hcs, utf8, byteLines]
    · have hne : utf8 cs ≠ [] := by
        obtain ⟨c, more, rfl⟩ := List.exists_cons_of_ne_nil hcs
        simp [utf8]
      rw [byteLines_last (newline_not_mem_utf8 hnewline) hne, if_neg hcs, List.map_singleton,
        Line.ofBytes_last hnewline]
      rfl
termination_by cs.length
decreasing_by
  rw [hcs, List.length_append, List.length_cons]
  omega

theorem Line.ofInput_utf8 (s : String) : Line.ofInput s.toUTF8 = (textParts s).map .text := by
  have := byteLines_utf8 s.toList
  rw [String.ofList_toList] at this
  rw [Line.ofInput, bytes_toList_utf8, this]

/-! ## The turns of a session -/

inductive Turn where
  | speak (text : String)
  | runs (source : String)

def Machine.say (text : String) (m : Machine) : Machine := { m with out := (m.out.write text).1 }

def Machine.take (fuel : Nat) (m : Machine) : Turn → Option Machine
  | .speak text => some (m.say text)
  | .runs source => (m.run fuel source).map (·.2)

def Machine.takeAll (fuel : Nat) (turns : List Turn) (m : Machine) : Option Machine :=
  turns.foldlM (Machine.take fuel) m

def promptText (before : Nat) : String := if before = 0 then "> " else "... "

def prompts (n : Nat) : List Turn := (List.range n).map fun i => .speak (promptText i)

def entryTurns (lines : List String) : List Turn :=
  prompts lines.length ++ [.runs (entryText lines)]

/-- The lines of an input up to the first that is no text. -/
def textLines : List Line → List String
  | .text line :: lines => line :: textLines lines
  | _ => []

theorem textLines_map_text (lines : List String) : textLines (lines.map .text) = lines := by
  induction lines with
  | nil => rfl
  | cons line lines ih => rw [List.map_cons, textLines, ih]

/-- How a session ends that has read its last line: the exit code and the last machine. -/
def Machine.close (lines : List Line) (rest : List String) (m : Machine) : Nat × Machine :=
  if .garbled ∈ lines then
    (70, { m with
      diagnostics :=
        (m.diagnostics.writeLine "Failed to read input: stream did not contain valid UTF-8").1 })
  else if rest = [] then (0, m.say "\n")
  else
    let scan := tokenize (entryText rest)
    (65, (m.say "\n").reportSyntax scan.errors (parse scan.tokens).errors)

theorem Machine.takeAll_append (fuel : Nat) (as bs : List Turn) (m : Machine) :
    m.takeAll fuel (as ++ bs) = (m.takeAll fuel as).bind (Machine.takeAll fuel bs) :=
  List.foldlM_append

theorem Machine.takeAll_prompts_succ {fuel n : Nat} {m k : Machine}
    (h : m.takeAll fuel (prompts n) = some k) :
    m.takeAll fuel (prompts (n + 1)) = some (k.say (promptText n)) := by
  have hprompts : prompts (n + 1) = prompts n ++ [.speak (promptText n)] := by
    simp [prompts, List.range_succ]
  rw [hprompts, Machine.takeAll_append, h]
  rfl

theorem Session.prompt_entryText (m : Machine) (lines : List String) :
    (⟨m, entryText lines⟩ : Session).prompt = promptText lines.length := by
  unfold Session.prompt promptText
  by_cases h : lines = []
  · simp [h, entryText]
  · rw [if_neg (mt (entryText_isEmpty lines).mp h), if_neg (mt List.length_eq_zero_iff.mp h)]

theorem Session.finish_entryText {lines : List String} (h : LeftOpen lines) (fuel : Nat)
    (m : Machine) : (⟨m, entryText lines⟩ : Session).finish fuel = some (m.close [] lines) := by
  by_cases hempty : lines = []
  · subst hempty
    rfl
  · have hopen := not_clean_of_needsMoreInput (h.needsMoreInput hempty)
    have hentry : (entryText lines).isEmpty = false :=
      Bool.eq_false_iff.mpr (mt (entryText_isEmpty lines).mp hempty)
    simp only [Session.finish, Session.say, hentry, Machine.run_of_not_clean _ hopen]
    simp [Machine.close, hempty, Machine.say, Status.exitCode]

section
variable {lines : List String} {line : String} (fuel : Nat) (k : Machine) (input : List Line)

theorem Session.overLines_of_open (h : 0 < linesBalance (lines ++ [line])) :
    (⟨k, entryText lines⟩ : Session).overLines fuel (.text line :: input) =
      (⟨k.say (promptText lines.length), entryText (lines ++ [line])⟩ : Session).overLines
        fuel input := by
  rw [Session.overLines, Session.prompt_entryText]
  simp [Session.step, Session.feed, Session.say, Machine.say, ← entryText_concat,
    needsMoreInput_entryText.mpr h]

theorem Session.overLines_of_closed (h : ¬ 0 < linesBalance (lines ++ [line])) :
    (⟨k, entryText lines⟩ : Session).overLines fuel (.text line :: input) =
      ((k.say (promptText lines.length)).run fuel (entryText (lines ++ [line]))).bind fun r =>
        (Session.start r.2).overLines fuel input := by
  have hentry : needsMoreInput (entryText (lines ++ [line])) = false :=
    Bool.eq_false_iff.mpr (mt needsMoreInput_entryText.mp h)
  rw [Session.overLines, Session.prompt_entryText]
  simp only [Session.step, Session.feed, Session.say, ← entryText_concat, hentry, Machine.say]
  generalize Machine.run fuel _ _ = r
  cases r <;> rfl

end

/-- The lines read so far are those of an open entry, and their prompts have been said. -/
theorem Session.overLines_eq (input : List Line) {lines : List String} (h : LeftOpen lines) :
    ∃ entries rest, CutInto (lines ++ textLines input) entries rest ∧
      ∀ fuel (m k : Machine), m.takeAll fuel (prompts lines.length) = some k →
        (⟨k, entryText lines⟩ : Session).overLines fuel input =
          (m.takeAll fuel (entries.flatMap entryTurns ++ prompts (rest.length + 1))).map
            (Machine.close input rest) := by
  induction input generalizing lines with
  | nil =>
    refine ⟨[], lines, ⟨by simp [textLines], by simp, h⟩, fun fuel m k hk => ?_⟩
    have hfinish := Session.finish_entryText h fuel (k.say (promptText lines.length))
    rw [List.flatMap_nil, List.nil_append, Machine.takeAll_prompts_succ hk,
      Option.map_some, ← hfinish, Session.overLines, Session.prompt_entryText]
    rfl
  | cons line input ih =>
    cases line with
    | garbled =>
      refine ⟨[], lines, ⟨by simp [textLines], by simp, h⟩, fun fuel m k hk => ?_⟩
      rw [List.flatMap_nil, List.nil_append, Machine.takeAll_prompts_succ hk, Session.overLines,
        Session.prompt_entryText]
      simp [Session.step, Session.abort, Session.say, Machine.close, Machine.say, Status.exitCode]
    | text line =>
      have htexts : lines ++ textLines (.text line :: input) = (lines ++ [line]) ++
          textLines input := by
        simp [textLines]
      have hclose : Machine.close (.text line :: input) = Machine.close input := by
        funext rest m
        simp [Machine.close]
      rw [htexts, hclose]
      by_cases hmore : 0 < linesBalance (lines ++ [line])
      · obtain ⟨entries, rest, hcut, hrest⟩ := ih (h.concat hmore)
        refine ⟨entries, rest, hcut, fun fuel m k hk => ?_⟩
        rw [Session.overLines_of_open fuel k input hmore]
        apply hrest
        rw [List.length_append]
        exact Machine.takeAll_prompts_succ hk
      · obtain ⟨entries, rest, hcut, hrest⟩ := ih leftOpen_nil
        refine ⟨(lines ++ [line]) :: entries, rest, ⟨?_, ?_, hcut.left⟩, fun fuel m k hk => ?_⟩
        · rw [List.flatten_cons, List.append_assoc, hcut.whole, List.nil_append]
        · exact List.forall_mem_cons.mpr ⟨⟨lines, line, rfl, h, not_lt.mp hmore⟩, hcut.closed⟩
        · have hread : m.takeAll fuel (prompts (lines ++ [line]).length) =
              some (k.say (promptText lines.length)) := by
            rw [List.length_append]
            exact Machine.takeAll_prompts_succ hk
          rw [Session.overLines_of_closed fuel k input hmore, List.flatMap_cons, entryTurns,
            List.append_assoc,
            List.append_assoc, Machine.takeAll_append, hread, Option.bind_some,
              Machine.takeAll_append]
          simp only [Machine.takeAll, Machine.take, List.foldlM_cons, List.foldlM_nil]
          cases (k.say (promptText lines.length)).run fuel (entryText (lines ++ [line])) with
          | none => rfl
          | some r => exact hrest fuel r.2 r.2 rfl

/-- **The session loses no input.** The lines of an input, up to the first that is
no text, are cut into entries, each at the first line that leaves no brace open.
The entries are run in order on one machine, with a prompt before each line that
tells whether an entry is open. An entry that is never closed is not carried
out: at the end of the input it gives the exit code 65, which is 0 without one.
In an input that is a text every line is one of the text. -/
theorem session_runs_entries (fuel : Nat) (input : ByteArray) :
    (∃ entries rest, CutInto (textLines (Line.ofInput input)) entries rest ∧
      (Session.start (.fresh none none)).overLines fuel (Line.ofInput input) =
        ((Machine.fresh none none).takeAll fuel
          (entries.flatMap entryTurns ++ prompts (rest.length + 1))).map
          (Machine.close (Line.ofInput input) rest)) ∧
    ∀ text : String, .garbled ∉ Line.ofInput text.toUTF8 ∧
      textLines (Line.ofInput text.toUTF8) = textParts text := by
  constructor
  · obtain ⟨entries, rest, hcut, hsession⟩ := Session.overLines_eq (Line.ofInput input) leftOpen_nil
    exact ⟨entries, rest, hcut, hsession fuel _ _ rfl⟩
  · intro text
    rw [Line.ofInput_utf8, textLines_map_text]
    exact ⟨by simp, rfl⟩

end Naskah
