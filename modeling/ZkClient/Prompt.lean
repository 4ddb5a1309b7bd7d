import Mathlib.Data.List.Chain
import Mathlib.Data.List.DropRight
import ZkClient.Editing
import ZkClient.Shell

/-!
# At the prompt

How `main` comes by its input: it reads lines with `linenoise`, which calls the completion callback on the way, and
keeps a history in a file.  Whatever is in the file and whatever keys are pressed, what `main` gets fits into requests
(`readLoop_tidy`), and what has been typed is what the next start of the program offers again (`readLoop_remembers`).
-/

namespace ZkClient

/-! ### The history file -/

/-- The bytes that `linenoiseHistorySave` writes. -/
def linenoiseHistorySave (history : List Bytes) : Bytes := history.flatMap (· ++ [10])

/-- `fgets` of at most `n` characters, and what is left of the file. -/
def fgets : Nat → Bytes → Bytes × Bytes
  | 0, file => ([], file)
  | _ + 1, [] => ([], [])
  | n + 1, c :: file => if c = 10 then ([c], file) else let r := fgets n file; (c :: r.1, r.2)

/-- The string before the first `\r` or else before the first `\n`. -/
def chomp (buf : Bytes) : Bytes :=
  let s := cstring buf
  if 13 ∈ s then s.takeWhile (· ≠ 13) else s.takeWhile (· ≠ 10)

/-- `linenoiseHistoryLoad`, in at most `n` rounds. -/
def linenoiseHistoryLoad (maxLen : Nat) : Nat → Bytes → List Bytes → List Bytes
  | 0, _, history => history
  | _ + 1, [], history => history
  | n + 1, file, history =>
    let (buf, file) := fgets (linenoiseMaxLine - 1) file
    linenoiseHistoryLoad maxLen n file (linenoiseHistoryAdd maxLen (chomp buf) history)

/-! ### The loop of `main` -/

structure Console where
  keys : List UInt8
  /-- The lines that have been returned and the texts that have been completed. -/
  inputs : List Input
  history : List Bytes
  file : Bytes
  outside : Bool

/-- The start of the program, when `file` is the history file; without one it is empty. -/
def Console.loaded (maxLen : Nat) (keys : List UInt8) (file : Bytes) : Console :=
  { keys, inputs := [], history := linenoiseHistoryLoad maxLen file.length file [], file, outside := false }

section Loop

variable (tty : Nat → Bool) (complete : List Input → List Bytes) (cols maxLen : Nat) (prompt : Bytes)
  (stack : List Input → Bytes) (quit : Bytes → Bool)

/-- `while (!quit && (line = linenoise(PROMPT)) != NULL)`, for at most `n` rounds; `complete` is what the callback adds
for the last of the inputs, and `quit` says which lines quit. -/
def readLoop : Nat → Console → Console
  | 0, x => x
  | n + 1, x =>
    let (line, keys, l) := linenoise tty (fun asked => complete (x.inputs ++ asked.map .tab)) cols maxLen prompt
      (stack x.inputs) x.keys x.history []
    let inputs := x.inputs ++ l.asked.map .tab
    let outside := x.outside || l.outside
    match line with
    | none => { x with keys, inputs, history := l.history, outside }
    | some line =>
      let history := linenoiseHistoryAdd maxLen line l.history
      let x := { keys, inputs := inputs ++ [.line line], history, file := linenoiseHistorySave history, outside }
      if quit line then x else readLoop n x

end Loop

/-! ### Whatever keys are pressed -/

theorem length_linenoiseHistoryAdd {maxLen : Nat} (hmax : 0 < maxLen) {history : List Bytes} (h : history.length ≤ maxLen)
    (line : Bytes) : (linenoiseHistoryAdd maxLen line history).length ≤ maxLen := by
  unfold linenoiseHistoryAdd
  split_ifs with hzero hlast hfull
  · exact h
  · exact h
  · rw [List.length_append, List.length_tail, List.length_singleton]
    omega
  · rw [List.length_append, List.length_singleton]
    omega

theorem Short.add {n maxLen : Nat} {line : Bytes} {history : List Bytes} (hline : Short n line)
    (h : ∀ s ∈ history, Short n s) : ∀ s ∈ linenoiseHistoryAdd maxLen line history, Short n s := by
  intro s hs
  rcases mem_linenoiseHistoryAdd hs with hs | rfl
  · exact h s hs
  · exact hline

/-- The text of the input is a string of at most `n` characters. -/
def Input.Short (n : Nat) : Input → Prop
  | line text | tab text => ZkClient.Short n text

/-- Everything at the prompt is short, the history is not too long, and no cell outside of a block has been touched. -/
structure Console.Tidy (n maxLen : Nat) (x : Console) : Prop where
  inputs : ∀ input ∈ x.inputs, input.Short n
  history : ∀ s ∈ x.history, Short n s
  count : x.history.length ≤ maxLen
  inside : x.outside = false

theorem length_fgets_le (n : Nat) (file : Bytes) : (fgets n file).1.length ≤ n := by
  induction n generalizing file with
  | zero => exact Nat.zero_le _
  | succ n ih =>
    cases file with
    | nil => exact Nat.zero_le _
    | cons c file =>
      rw [fgets]
      split
      · exact Nat.succ_le_succ (Nat.zero_le n)
      · exact Nat.succ_le_succ (ih file)

theorem short_chomp {n : Nat} {buf : Bytes} (h : buf.length ≤ n) : Short n (chomp buf) := by
  have hpre : chomp buf <+: cstring buf := by
    unfold chomp
    dsimp only
    split
    · exact List.takeWhile_prefix _
    · exact List.takeWhile_prefix _
  refine ⟨fun hmem => zero_not_mem_cstring buf (hpre.subset hmem), ?_⟩
  exact (hpre.length_le.trans (List.takeWhile_prefix _).length_le).trans h

/-- Whatever is in the file, the lines that are loaded fit into the memory for a line, and there are not too many. -/
theorem linenoiseHistoryLoad_tidy {maxLen : Nat} (hmax : 0 < maxLen) (n : Nat) (file : Bytes) {history : List Bytes}
    (hhistory : ∀ s ∈ history, Short (linenoiseMaxLine - 1) s) (hcount : history.length ≤ maxLen) :
    (∀ s ∈ linenoiseHistoryLoad maxLen n file history, Short (linenoiseMaxLine - 1) s) ∧
      (linenoiseHistoryLoad maxLen n file history).length ≤ maxLen := by
  induction n generalizing file history with
  | zero => exact ⟨hhistory, hcount⟩
  | succ n ih =>
    cases file with
    | nil => exact ⟨hhistory, hcount⟩
    | cons c file =>
      have hline : Short (linenoiseMaxLine - 1) (chomp (fgets (linenoiseMaxLine - 1) (c :: file)).1) :=
        short_chomp (length_fgets_le _ _)
      exact ih _ (Short.add hline hhistory) (length_linenoiseHistoryAdd hmax hcount _)

theorem Console.loaded_tidy {maxLen : Nat} (hmax : 0 < maxLen) (keys : List UInt8) (file : Bytes) :
    (Console.loaded maxLen keys file).Tidy (linenoiseMaxLine - 1) maxLen := by
  obtain ⟨hhistory, hcount⟩ :=
    linenoiseHistoryLoad_tidy hmax file.length file (List.forall_mem_nil _) (Nat.zero_le maxLen)
  exact ⟨List.forall_mem_nil _, hhistory, hcount, rfl⟩

section Loop

variable {tty : Nat → Bool} {complete : List Input → List Bytes} {cols maxLen : Nat} {prompt : Bytes}
  {stack : List Input → Bytes} {quit : Bytes → Bool} {x : Console}

private theorem linenoise_tidy (htty : ∀ k, tty k = true) {cells : Bytes} (hstack : cells.length = linenoiseMaxLine)
    (hprompt : prompt.length < cols) (hmax : 0 < maxLen) {complete : List Bytes → List Bytes}
    (hcomplete : ∀ asked, ∀ name ∈ complete asked, 0 ∉ name ∧ name.length + 1 < linenoiseMaxLine) {history : List Bytes}
    (hhistory : ∀ s ∈ history, Short (linenoiseMaxLine - 1) s) (hcount : history.length ≤ maxLen) (keys : List UInt8) :
    let r := linenoise tty complete cols maxLen prompt cells keys history []
    Reading.Tidy (linenoiseMaxLine - 1) maxLen ⟨r.1, r.2.1, r.2.2.history, r.2.2.asked⟩ ∧ r.2.2.outside = false := by
  intro r
  have hnew := Draft.history_new hmax history []
  have hstart : (Draft.new (linenoiseHistoryAdd maxLen [] history) []).Tidy (linenoiseMaxLine - 1)
      (linenoiseHistoryAdd maxLen [] history).length := by
    refine ⟨by simp [Draft.new], ?_, by rw [hnew], by simp [Draft.new]⟩
    rw [hnew]
    exact Short.add ⟨List.not_mem_nil, Nat.zero_le _⟩ hhistory
  have hshort : ∀ asked, ∀ name ∈ complete asked, name.length < linenoiseMaxLine - 1 := by
    intro asked name hname
    have hlt := (hcomplete asked name hname).2
    omega
  have hread := hstart.read hshort keys.length keys
  obtain ⟨heq, hinside⟩ := linenoise_eq htty (by rw [hstack]; decide) hprompt hmax (fun s hs => (hhistory s hs).1)
    (fun asked name hname => by rw [hstack]; exact hcomplete asked name hname) keys []
  rw [hstack] at heq
  rw [heq] at hread
  exact ⟨⟨hread.line, hread.history, hread.count.trans (length_linenoiseHistoryAdd hmax hcount []), hread.asked⟩, hinside⟩

/-- The loop keeps the console tidy. -/
theorem Console.Tidy.readLoop (htty : ∀ k, tty k = true) (hstack : ∀ inputs, (stack inputs).length = linenoiseMaxLine)
    (hprompt : prompt.length < cols) (hmax : 0 < maxLen)
    (hcomplete : ∀ inputs, ∀ name ∈ complete inputs, 0 ∉ name ∧ name.length + 1 < linenoiseMaxLine)
    (hx : x.Tidy (linenoiseMaxLine - 1) maxLen) (n : Nat) :
    (ZkClient.readLoop tty complete cols maxLen prompt stack quit n x).Tidy (linenoiseMaxLine - 1) maxLen := by
  induction n generalizing x with
  | zero => exact hx
  | succ n ih =>
    obtain ⟨hr, hinside⟩ := linenoise_tidy htty (hstack x.inputs) hprompt hmax
      (fun asked name hname => hcomplete (x.inputs ++ asked.map .tab) name hname) hx.history hx.count x.keys
    rw [ZkClient.readLoop]
    generalize linenoise tty (fun asked => complete (x.inputs ++ asked.map .tab)) cols maxLen prompt (stack x.inputs)
      x.keys x.history [] = r at hr hinside ⊢
    obtain ⟨line, keys, l⟩ := r
    have hinputs : ∀ input ∈ x.inputs ++ l.asked.map .tab, input.Short (linenoiseMaxLine - 1) := by
      intro input hinput
      rcases List.mem_append.1 hinput with hinput | hinput
      · exact hx.inputs input hinput
      · obtain ⟨s, hs, rfl⟩ := List.mem_map.1 hinput
        exact hr.asked s hs
    have houtside : (x.outside || l.outside) = false := Bool.or_eq_false_iff.2 ⟨hx.inside, hinside⟩
    cases line with
    | none => exact ⟨hinputs, hr.history, hr.count, houtside⟩
    | some line =>
      have hline := hr.line line rfl
      have hnext : Console.Tidy (linenoiseMaxLine - 1) maxLen
          { keys, inputs := x.inputs ++ l.asked.map .tab ++ [.line line]
            history := linenoiseHistoryAdd maxLen line l.history
            file := linenoiseHistorySave (linenoiseHistoryAdd maxLen line l.history)
            outside := x.outside || l.outside } := by
        refine ⟨?_, Short.add hline hr.history, length_linenoiseHistoryAdd hmax hr.count line, houtside⟩
        intro input hinput
        rcases List.mem_append.1 hinput with hinput | hinput
        · exact hinputs input hinput
        · exact List.mem_singleton.1 hinput ▸ hline
      dsimp only
      split
      · exact hnext
      · exact ih hnext

/-- Whatever is in the history file and whatever keys are pressed, the inputs of `main` are strings that fit into the
memory for a line, the history keeps its bound, and `linenoise` stays in its blocks. -/
theorem readLoop_tidy (htty : ∀ k, tty k = true) (hstack : ∀ inputs, (stack inputs).length = linenoiseMaxLine)
    (hprompt : prompt.length < cols) (hmax : 0 < maxLen)
    (hcomplete : ∀ inputs, ∀ name ∈ complete inputs, 0 ∉ name ∧ name.length + 1 < linenoiseMaxLine)
    (keys : List UInt8) (file : Bytes) (n : Nat) :
    (readLoop tty complete cols maxLen prompt stack quit n (.loaded maxLen keys file)).Tidy (linenoiseMaxLine - 1)
      maxLen :=
  (Console.loaded_tidy hmax keys file).readLoop htty hstack hprompt hmax hcomplete n

/-- A line that is completed and entered, and then none. -/
theorem readLoop_tidy_tab :
    (readLoop (fun _ => true) (fun _ => [[108, 115]]) 80 100 [62] (fun _ => List.replicate linenoiseMaxLine 255)
      (fun _ => false) 2 (.loaded 100 [108, 9, 13, 3] [103, 10])).Tidy (linenoiseMaxLine - 1) 100 :=
  readLoop_tidy (fun _ => rfl) (fun _ => List.length_replicate) (by decide) (by decide) (fun _ => by decide)
    [108, 9, 13, 3] [103, 10] 2

end Loop

/-! ### What is typed is remembered -/

private theorem rtake_rtake_append {α : Type} (n : Nat) (xs ys : List α) :
    ((xs.rtake n) ++ ys).rtake n = (xs ++ ys).rtake n := by
  simp only [List.rtake_eq_reverse_take_reverse, List.reverse_append, List.reverse_reverse, List.take_append,
    List.take_take]
  rw [Nat.min_eq_left (Nat.sub_le _ _)]

private theorem rtake_of_length_le {α : Type} {n : Nat} {xs : List α} (h : xs.length ≤ n) : xs.rtake n = xs := by
  rw [List.rtake, Nat.sub_eq_zero_of_le h, List.drop_zero]

private theorem rtake_append_suffix {α : Type} (n : Nat) (xs ys : List α) : xs.rtake n ++ ys <:+ xs ++ ys := by
  obtain ⟨dropped, hdropped⟩ : xs.rtake n <:+ xs := List.drop_suffix _ _
  exact ⟨dropped, by rw [← List.append_assoc, hdropped]⟩

private theorem length_rtake_le {α : Type} (n : Nat) (xs : List α) : (xs.rtake n).length ≤ n := by
  rw [List.rtake, List.length_drop]
  omega

section History

variable {maxLen : Nat}

theorem linenoiseHistoryAdd_eq (hmax : 0 < maxLen) {line : Bytes} {history : List Bytes} (h : history.length ≤ maxLen)
    (hnew : history.getLast? ≠ some line) : linenoiseHistoryAdd maxLen line history = (history ++ [line]).rtake maxLen := by
  obtain ⟨n, rfl⟩ := Nat.exists_eq_succ_of_ne_zero hmax.ne'
  rw [linenoiseHistoryAdd, if_neg hmax.ne', if_neg hnew, List.rtake_concat_succ]
  split
  case isTrue hfull => rw [List.rtake, hfull, Nat.succ_sub (Nat.le_refl n), Nat.sub_self, List.drop_one]
  case isFalse hroom => rw [rtake_of_length_le (by omega)]

/-- Strings, none of which is that before it, are kept as far as there is room. -/
theorem foldl_linenoiseHistoryAdd (hmax : 0 < maxLen) {lines start : List Bytes} (hstart : start.length ≤ maxLen)
    (hchain : (start ++ lines).IsChain (· ≠ ·)) :
    lines.foldl (fun history line => linenoiseHistoryAdd maxLen line history) start = (start ++ lines).rtake maxLen := by
  induction lines generalizing start with
  | nil => rw [List.foldl_nil, List.append_nil, rtake_of_length_le hstart]
  | cons line lines ih =>
    have hnew : start.getLast? ≠ some line := by
      intro hlast
      exact (List.isChain_append.1 hchain).2.2 line hlast line rfl rfl
    have hchain' : ((start ++ [line]).rtake maxLen ++ lines).IsChain (· ≠ ·) := by
      rw [List.append_cons] at hchain
      exact hchain.suffix (rtake_append_suffix maxLen _ _)
    rw [List.foldl_cons, linenoiseHistoryAdd_eq hmax hstart hnew, ih (length_rtake_le _ _) hchain', rtake_rtake_append,
      ← List.append_cons]

/-- A line of the file is read in one piece. -/
theorem fgets_line {n : Nat} {line : Bytes} (h10 : 10 ∉ line) (hlen : line.length < n) (file : Bytes) :
    fgets n (line ++ 10 :: file) = (line ++ [10], file) := by
  induction line generalizing n with
  | nil =>
    obtain ⟨n, rfl⟩ := Nat.exists_eq_succ_of_ne_zero hlen.ne'
    rfl
  | cons c line ih =>
    obtain ⟨n, rfl⟩ := Nat.exists_eq_succ_of_ne_zero (Nat.ne_of_gt ((Nat.zero_lt_succ _).trans hlen))
    rw [List.mem_cons, not_or] at h10
    rw [List.cons_append, fgets, if_neg (Ne.symm h10.1), ih h10.2 (Nat.lt_of_succ_lt_succ hlen)]
    rfl

theorem chomp_line {line : Bytes} (h0 : 0 ∉ line) (h10 : 10 ∉ line) (h13 : 13 ∉ line) : chomp (line ++ [10]) = line := by
  have hs : cstring (line ++ [10]) = line ++ [10] := cstring_eq_self (by simp [h0])
  have hcut : (line ++ [10]).takeWhile (· ≠ 10) = line := by
    rw [List.takeWhile_append_of_pos (by
      intro c hc
      exact decide_eq_true fun heq => h10 (heq ▸ hc))]
    simp
  rw [chomp]
  simp only [hs]
  rw [if_neg (by simp [h13]), hcut]

/-- A string that is kept by the file: it has no end of a line in it and fits into the buffer of `linenoiseHistoryLoad`. -/
def Storable (s : Bytes) : Prop := 0 ∉ s ∧ 10 ∉ s ∧ 13 ∉ s ∧ s.length + 1 < linenoiseMaxLine

/-- What has been saved is loaded line by line. -/
theorem linenoiseHistoryLoad_save {lines start : List Bytes} (h : ∀ s ∈ lines, Storable s) {fuel : Nat}
    (hfuel : (linenoiseHistorySave lines).length ≤ fuel) :
    linenoiseHistoryLoad maxLen fuel (linenoiseHistorySave lines) start =
      lines.foldl (fun history line => linenoiseHistoryAdd maxLen line history) start := by
  induction lines generalizing start fuel with
  | nil => cases fuel <;> rfl
  | cons line lines ih =>
    obtain ⟨h0, h10, h13, hlen⟩ := h line (List.mem_cons_self)
    have hfile : linenoiseHistorySave (line :: lines) = line ++ 10 :: linenoiseHistorySave lines := by
      simp [linenoiseHistorySave]
    rw [hfile, List.length_append, List.length_cons] at hfuel
    obtain ⟨fuel, rfl⟩ := Nat.exists_eq_succ_of_ne_zero (show fuel ≠ 0 by omega)
    have hround : linenoiseHistoryLoad maxLen (fuel + 1) (line ++ 10 :: linenoiseHistorySave lines) start =
        linenoiseHistoryLoad maxLen fuel (linenoiseHistorySave lines) (linenoiseHistoryAdd maxLen line start) := by
      obtain ⟨c, file, hcons⟩ : ∃ c file, line ++ 10 :: linenoiseHistorySave lines = c :: file :=
        List.exists_cons_of_ne_nil (by simp)
      have hline := fgets_line h10 (show line.length < linenoiseMaxLine - 1 by omega) (linenoiseHistorySave lines)
      rw [hcons] at hline ⊢
      rw [linenoiseHistoryLoad, hline]
      · dsimp only
        rw [chomp_line h0 h10 h13]
      · exact List.cons_ne_nil c file
    rw [hfile, hround, ih (fun s hs => h s (List.mem_cons_of_mem _ hs)) (by omega), List.foldl_cons]

end History

section Loop

variable {tty : Nat → Bool} {complete : List Input → List Bytes} {cols maxLen : Nat} {prompt : Bytes}
  {stack : List Input → Bytes} {quit : Bytes → Bool}

/-- One round of the loop, in which a line is typed. -/
private theorem readLoop_typed (htty : ∀ k, tty k = true) (hstack : ∀ inputs, (stack inputs).length = linenoiseMaxLine)
    (hprompt : prompt.length < cols) (hmax : 0 < maxLen)
    (hcomplete : ∀ inputs, ∀ name ∈ complete inputs, 0 ∉ name ∧ name.length + 1 < linenoiseMaxLine) {x : Console}
    {text : Bytes} (hplain : ∀ c ∈ text, Plain c) (hlen : text.length < linenoiseMaxLine) (rest : List UInt8)
    (hkeys : x.keys = text ++ 13 :: rest) (hhistory : ∀ s ∈ x.history, 0 ∉ s) (hquit : quit text = false) (n : Nat) :
    let history := linenoiseHistoryAdd maxLen text (linenoiseHistoryAdd maxLen [] x.history).dropLast
    ∃ outside, readLoop tty complete cols maxLen prompt stack quit (n + 1) x =
      readLoop tty complete cols maxLen prompt stack quit n
        { keys := rest, inputs := x.inputs ++ [.line text], history, file := linenoiseHistorySave history, outside } := by
  intro history
  obtain ⟨heq, -⟩ := linenoise_eq htty (by rw [hstack x.inputs]; decide) hprompt hmax hhistory
    (fun asked name hname => by rw [hstack]; exact hcomplete (x.inputs ++ asked.map .tab) name hname) x.keys []
  have hread : Draft.read (linenoiseMaxLine - 1) (fun asked => complete (x.inputs ++ asked.map .tab)) x.keys.length x.keys
      (.new (linenoiseHistoryAdd maxLen [] x.history) []) =
        Draft.closePopped (some text) rest (.new (linenoiseHistoryAdd maxLen [] x.history) []) := by
    have hroom : ([] : Bytes).length + text.length ≤ linenoiseMaxLine - 1 := by
      rw [List.length_nil]
      omega
    have hfuel : text.length < (text ++ 13 :: rest).length := by
      rw [List.length_append, List.length_cons]
      omega
    rw [hkeys]
    exact Draft.read_typed (d := .new (linenoiseHistoryAdd maxLen [] x.history) []) hplain hroom List.not_mem_nil rest hfuel
  rw [hstack, hread, Draft.closePopped, Draft.history_new hmax] at heq
  rw [readLoop]
  generalize linenoise tty (fun asked => complete (x.inputs ++ asked.map .tab)) cols maxLen prompt (stack x.inputs)
    x.keys x.history [] = r at heq ⊢
  obtain ⟨line, keys, l⟩ := r
  obtain ⟨rfl, rfl, hpopped, hasked⟩ := Reading.mk.inj heq
  refine ⟨x.outside || l.outside, ?_⟩
  have hnone : l.asked = [] := hasked.symm
  dsimp only at hpopped ⊢
  rw [hquit, if_neg Bool.false_ne_true, ← hpopped, hnone, List.map_nil, List.append_nil]

/-- The last lines of a history with a new one. -/
private theorem remembered (hmax : 0 < maxLen) {text : Bytes} {history : List Bytes} (h : history.length ≤ maxLen)
    (hlast : history.getLast? ≠ some []) (hnew : history.getLast? ≠ some text) :
    linenoiseHistoryAdd maxLen text (linenoiseHistoryAdd maxLen [] history).dropLast =
      (history ++ [text]).rtake maxLen := by
  obtain ⟨n, rfl⟩ := Nat.exists_eq_succ_of_ne_zero hmax.ne'
  have hroom : (history.rtake n).length ≤ n := length_rtake_le n history
  have hnew' : (history.rtake n).getLast? ≠ some text := by
    rw [List.rtake, List.getLast?_drop]
    split
    · simp
    · exact hnew
  rw [linenoiseHistoryAdd_eq hmax h hlast, List.rtake_concat_succ, List.dropLast_concat,
    linenoiseHistoryAdd_eq hmax (by omega) hnew', List.rtake_concat_succ, List.rtake_concat_succ,
    rtake_of_length_le hroom]

/-- The keys are lines of plain characters that are entered, and none of them, and none of the history, is empty or that
before it. -/
structure Console.Typed (maxLen : Nat) (quit : Bytes → Bool) (texts : List Bytes) (rest : List UInt8) (x : Console) :
    Prop where
  keys : x.keys = texts.flatMap (· ++ [13]) ++ rest
  plain : ∀ text ∈ texts, ∀ c ∈ text, Plain c
  short : ∀ text ∈ texts, text.length + 1 < linenoiseMaxLine
  stays : ∀ text ∈ texts, quit text = false
  storable : ∀ s ∈ x.history, Storable s
  count : x.history.length ≤ maxLen
  nonempty : [] ∉ x.history ++ texts
  chain : (x.history ++ texts).IsChain (· ≠ ·)

theorem Plain.storable {text : Bytes} (hplain : ∀ c ∈ text, Plain c) (hlen : text.length + 1 < linenoiseMaxLine) :
    Storable text :=
  ⟨fun h => (hplain 0 h).ne 0 rfl rfl, fun h => (hplain 10 h).ne 10 rfl rfl, fun h => (hplain 13 h).ne 13 rfl rfl, hlen⟩

/-- After the first line the others are left. -/
private theorem Console.Typed.next {text : Bytes} {texts : List Bytes} {rest : List UInt8} {x : Console}
    (h : x.Typed maxLen quit (text :: texts) rest) (inputs : List Input) (file : Bytes) (outside : Bool) :
    Console.Typed maxLen quit texts rest
      { keys := texts.flatMap (· ++ [13]) ++ rest, inputs, history := (x.history ++ [text]).rtake maxLen, file, outside } := by
  have hsuffix : (x.history ++ [text]).rtake maxLen ++ texts <:+ x.history ++ text :: texts := by
    rw [List.append_cons x.history text texts]
    exact rtake_append_suffix maxLen _ _
  refine ⟨rfl, fun t ht => h.plain t (List.mem_cons_of_mem _ ht), fun t ht => h.short t (List.mem_cons_of_mem _ ht),
    fun t ht => h.stays t (List.mem_cons_of_mem _ ht), ?_, length_rtake_le _ _, ?_, h.chain.suffix hsuffix⟩
  · intro s hs
    rcases List.mem_append.1 (List.mem_of_mem_drop hs) with hs | hs
    · exact h.storable s hs
    · obtain rfl := List.mem_singleton.1 hs
      exact Plain.storable (h.plain s List.mem_cons_self) (h.short s List.mem_cons_self)
  · exact fun hmem => h.nonempty (hsuffix.subset hmem)

private theorem readLoop_texts (htty : ∀ k, tty k = true) (hstack : ∀ inputs, (stack inputs).length = linenoiseMaxLine)
    (hprompt : prompt.length < cols) (hmax : 0 < maxLen)
    (hcomplete : ∀ inputs, ∀ name ∈ complete inputs, 0 ∉ name ∧ name.length + 1 < linenoiseMaxLine) {x : Console}
    {texts : List Bytes} {rest : List UInt8} (hx : x.Typed maxLen quit texts rest) :
    let y := readLoop tty complete cols maxLen prompt stack quit texts.length x
    y.keys = rest ∧ y.inputs = x.inputs ++ texts.map .line ∧
      y.file = if texts = [] then x.file else linenoiseHistorySave ((x.history ++ texts).rtake maxLen) := by
  induction texts generalizing x with
  | nil => exact ⟨hx.keys, (List.append_nil _).symm, rfl⟩
  | cons text texts ih =>
    have hkeys : x.keys = text ++ 13 :: (texts.flatMap (· ++ [13]) ++ rest) := by
      rw [hx.keys]
      simp
    have hlast : ∀ s, s ∈ x.history.getLast? → s ≠ [] ∧ s ≠ text := by
      intro s hs
      refine ⟨?_, (List.isChain_append.1 hx.chain).2.2 s hs text rfl⟩
      rintro rfl
      exact hx.nonempty (List.mem_append_left _ (List.mem_of_getLast? hs))
    obtain ⟨outside, hround⟩ := readLoop_typed htty hstack hprompt hmax hcomplete (hx.plain text List.mem_cons_self)
      (Nat.lt_of_succ_lt (hx.short text List.mem_cons_self)) _ hkeys (fun s hs => (hx.storable s hs).1)
      (hx.stays text List.mem_cons_self) texts.length
    rw [remembered hmax hx.count (fun hnil => (hlast _ hnil).1 rfl) (fun htext => (hlast _ htext).2 rfl)] at hround
    obtain ⟨hrest, hinputs, hfile⟩ := ih (hx.next (x.inputs ++ [.line text])
      (linenoiseHistorySave ((x.history ++ [text]).rtake maxLen)) outside)
    intro y
    have hy : y = _ := hround
    rw [hy, if_neg (List.cons_ne_nil _ _)]
    refine ⟨hrest, ?_, ?_⟩
    · rw [hinputs, List.map_cons, List.append_assoc, List.singleton_append]
    · have hall : (x.history ++ text :: texts).rtake maxLen = ((x.history ++ [text]).rtake maxLen ++ texts).rtake maxLen := by
        rw [List.append_cons x.history text texts, rtake_rtake_append]
      rw [hfile, hall]
      split
      case isTrue hnone => rw [hnone, List.append_nil, rtake_of_length_le (length_rtake_le _ _)]
      case isFalse => rfl

/-- Lines that are typed at the prompt are the inputs of `main`, in their order, and the next start of the program loads
the last of all lines, those of the history and the new ones. -/
theorem readLoop_remembers (htty : ∀ k, tty k = true) (hstack : ∀ inputs, (stack inputs).length = linenoiseMaxLine)
    (hprompt : prompt.length < cols) (hmax : 0 < maxLen)
    (hcomplete : ∀ inputs, ∀ name ∈ complete inputs, 0 ∉ name ∧ name.length + 1 < linenoiseMaxLine) {x : Console}
    {texts : List Bytes} (hne : texts ≠ []) {rest : List UInt8} (hx : x.Typed maxLen quit texts rest) :
    let y := readLoop tty complete cols maxLen prompt stack quit texts.length x
    y.keys = rest ∧ y.inputs = x.inputs ++ texts.map .line ∧
      ∀ fuel, y.file.length ≤ fuel → linenoiseHistoryLoad maxLen fuel y.file [] = (x.history ++ texts).rtake maxLen := by
  intro y
  obtain ⟨hrest, hinputs, hfile⟩ := readLoop_texts htty hstack hprompt hmax hcomplete hx
  refine ⟨hrest, hinputs, fun fuel hfuel => ?_⟩
  have hsaved : y.file = linenoiseHistorySave ((x.history ++ texts).rtake maxLen) := hfile.trans (if_neg hne)
  have hsuffix : (x.history ++ texts).rtake maxLen <:+ x.history ++ texts := List.drop_suffix _ _
  have hstorable : ∀ s ∈ (x.history ++ texts).rtake maxLen, Storable s := by
    intro s hs
    rcases List.mem_append.1 (hsuffix.subset hs) with hs | hs
    · exact hx.storable s hs
    · exact Plain.storable (hx.plain s hs) (hx.short s hs)
  have hempty : ([] : List Bytes).length ≤ maxLen := Nat.zero_le maxLen
  have hchain : ([] ++ (x.history ++ texts).rtake maxLen).IsChain (· ≠ ·) := hx.chain.suffix hsuffix
  rw [hsaved] at hfuel ⊢
  rw [linenoiseHistoryLoad_save hstorable hfuel, foldl_linenoiseHistoryAdd hmax hempty hchain, List.nil_append,
    rtake_of_length_le (length_rtake_le _ _)]

/-- Two lines at a history for two. -/
theorem readLoop_remembers_two :
    let y := readLoop (fun _ => true) (fun _ => []) 80 2 [62] (fun _ => List.replicate linenoiseMaxLine 255) (fun _ => false)
      [[108, 115], [101]].length
      { keys := [108, 115, 13, 101, 13, 3], inputs := [], history := [[103]], file := [], outside := false }
    y.keys = [3] ∧ y.inputs = [.line [108, 115], .line [101]] ∧
      ∀ fuel, y.file.length ≤ fuel → linenoiseHistoryLoad 2 fuel y.file [] = [[108, 115], [101]] := by
  have hx : Console.Typed 2 (fun _ => false) [[108, 115], [101]] [3]
      { keys := [108, 115, 13, 101, 13, 3], inputs := [], history := [[103]], file := [], outside := false } := by
    constructor
    · rfl
    · simp [Plain]
    · simp [linenoiseMaxLine]
    · simp
    · simp [Storable, linenoiseMaxLine]
    · simp
    · simp
    · simp
  have hstack : ∀ inputs : List Input, ((fun _ => List.replicate linenoiseMaxLine 255) inputs : Bytes).length =
      linenoiseMaxLine := fun _ => List.length_replicate
  have h := @readLoop_remembers (fun _ => true) (fun _ => []) 80 2 [62] _ (fun _ => false) (fun _ => rfl) hstack (by decide)
    (by decide) (by simp) _ _ (List.cons_ne_nil _ _) _ hx
  exact h

end Loop

end ZkClient
