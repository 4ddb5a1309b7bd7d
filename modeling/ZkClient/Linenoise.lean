import ZkClient.Recordio
import ZkClient.Lib.Decimal
import ZkClient.Lib.Zipper

/-!
# The line editor

`linenoise.c` at a terminal that is never in multi line mode, as the program uses it.  The keys are a list; when it is
used up, reading fails.  `tty` says which writes of a single character the terminal accepts, by the number of writes
before, and `complete` what the completion callback adds, by the lines for which it has been called.
-/

namespace ZkClient

/-- `LINENOISE_MAX_LINE`. -/
def linenoiseMaxLine : Nat := 4096

/-- `struct linenoiseState`, and the global `history`. -/
structure LinenoiseState where
  buf : Bytes
  buflen : Nat
  prompt : Bytes
  pos : Nat
  len : Nat
  cols : Nat
  historyIndex : Int
  history : List Bytes
  /-- What has been written to the terminal. -/
  output : List Bytes
  /-- The lines for which the completion callback has been called. -/
  asked : List Bytes
  /-- Whether a cell outside of a block has been touched. -/
  outside : Bool

/-- How a key leaves the editor: reading on, with a line or with `-1`. -/
inductive Flow where
  | next
  | line
  | null
  deriving DecidableEq, Repr

namespace LinenoiseState

/-- `l->buf[i] = c`. -/
def store (i : Nat) (c : UInt8) (l : LinenoiseState) : LinenoiseState :=
  { l with buf := Cells.store i c l.buf, outside := l.outside || decide (l.buf.length ≤ i) }

/-- `memmove(l->buf + dst, l->buf + src, n)`. -/
def memmove (dst src n : Nat) (l : LinenoiseState) : LinenoiseState :=
  { l with
    buf := Cells.move dst src n l.buf
    outside := l.outside || decide (l.buf.length < dst + n ∨ l.buf.length < src + n) }

def write (l : LinenoiseState) (bs : Bytes) : LinenoiseState := { l with output := l.output ++ [bs] }

end LinenoiseState

open LinenoiseState

/-! ### Refreshing the line -/

/-- `while ((plen + pos) >= l->cols)`, for at most `n` rounds, with the number of rounds that have been made. -/
def scroll (plen cols : Nat) : Nat → Int × Int × Int → Int × Int × Int
  | 0, w => w
  | n + 1, (off, len, pos) =>
    if cols ≤ plen + pos then scroll plen cols n (off + 1, len - 1, pos - 1) else (off, len, pos)

/-- `while (plen + len > l->cols)`, for at most `n` rounds. -/
def clip (plen cols : Nat) : Nat → Int → Int
  | 0, len => len
  | n + 1, len => if cols < plen + len then clip plen cols n (len - 1) else len

def refreshSingleLine (l : LinenoiseState) : LinenoiseState :=
  let plen := l.prompt.length
  let (off, len, pos) := scroll plen l.cols (plen + l.pos) (0, l.len, l.pos)
  let len := clip plen l.cols (plen + l.len) len
  let shown := (l.buf.drop off.toNat).take len.toNat
  { l with
    output := l.output ++
      [[13] ++ l.prompt ++ shown ++ [27, 91, 48, 75] ++ [13, 27, 91] ++ Decimal.render (pos + plen) ++ [67]]
    outside := l.outside || decide (len < 0 ∨ l.buf.length < off + len) }

/-! ### History -/

/-- `linenoiseHistoryAdd`. -/
def linenoiseHistoryAdd (maxLen : Nat) (line : Bytes) (history : List Bytes) : List Bytes :=
  if maxLen = 0 then history
  else if history.getLast? = some line then history
  else (if history.length = maxLen then history.tail else history) ++ [line]

/-- `strncpy(l->buf, s, l->buflen)` and the terminator. -/
def LinenoiseState.load (s : Bytes) (l : LinenoiseState) : LinenoiseState :=
  let l := { l with
    buf := s.take l.buflen ++ List.replicate (l.buflen - s.length) 0 ++ l.buf.drop l.buflen
    outside := l.outside || decide (l.buf.length < l.buflen) }
  let l := l.store (l.buflen - 1) 0
  { l with len := strlen l.buf, pos := strlen l.buf }

/-- `linenoiseEditHistoryNext`; `dir` is 1 for `LINENOISE_HISTORY_PREV` and -1 for `LINENOISE_HISTORY_NEXT`. -/
def linenoiseEditHistoryNext (dir : Int) (l : LinenoiseState) : LinenoiseState :=
  if 1 < l.history.length then
    let entry (index : Int) : Int := l.history.length - 1 - index
    let l := { l with
      history := l.history.set (entry l.historyIndex).toNat (cstring l.buf)
      outside := l.outside || decide (entry l.historyIndex < 0 ∨ l.history.length ≤ entry l.historyIndex ∨ 0 ∉ l.buf) }
    let index := l.historyIndex + dir
    if index < 0 then { l with historyIndex := 0 }
    else if l.history.length ≤ index then { l with historyIndex := l.history.length - 1 }
    else refreshSingleLine ({ l with historyIndex := index }.load (l.history.getD (entry index).toNat []))
  else l

/-! ### Editing -/

def linenoiseEditMoveLeft (l : LinenoiseState) : LinenoiseState :=
  if 0 < l.pos then refreshSingleLine { l with pos := l.pos - 1 } else l

def linenoiseEditMoveRight (l : LinenoiseState) : LinenoiseState :=
  if l.pos ≠ l.len then refreshSingleLine { l with pos := l.pos + 1 } else l

def linenoiseEditMoveHome (l : LinenoiseState) : LinenoiseState :=
  if l.pos ≠ 0 then refreshSingleLine { l with pos := 0 } else l

def linenoiseEditMoveEnd (l : LinenoiseState) : LinenoiseState :=
  if l.pos ≠ l.len then refreshSingleLine { l with pos := l.len } else l

def linenoiseEditDelete (l : LinenoiseState) : LinenoiseState :=
  if 0 < l.len ∧ l.pos < l.len then
    let l := l.memmove l.pos (l.pos + 1) (l.len - l.pos - 1)
    refreshSingleLine ({ l with len := l.len - 1 }.store (l.len - 1) 0)
  else l

def linenoiseEditBackspace (l : LinenoiseState) : LinenoiseState :=
  if 0 < l.pos ∧ 0 < l.len then
    let l := l.memmove (l.pos - 1) l.pos (l.len - l.pos)
    refreshSingleLine ({ l with pos := l.pos - 1, len := l.len - 1 }.store (l.len - 1) 0)
  else l

/-- `while (l->pos > 0 && p(l->buf[l->pos-1])) l->pos--`. -/
def backWhile (p : UInt8 → Bool) (buf : Bytes) : Nat → Nat
  | 0 => 0
  | pos + 1 => if p (buf.getD pos 0) then backWhile p buf pos else pos + 1

def linenoiseEditDeletePrevWord (l : LinenoiseState) : LinenoiseState :=
  let oldPos := l.pos
  let pos := backWhile (· ≠ 32) l.buf (backWhile (· = 32) l.buf l.pos)
  let l := { l with pos, outside := l.outside || decide (l.buf.length < l.pos) }
  let l := l.memmove l.pos oldPos (l.len - oldPos + 1)
  refreshSingleLine { l with len := l.len - (oldPos - pos) }

/-- Ctrl-t. -/
def swapCharacters (l : LinenoiseState) : LinenoiseState :=
  if 0 < l.pos ∧ l.pos < l.len then
    let aux := l.buf.getD (l.pos - 1) 0
    let l := (l.store (l.pos - 1) (l.buf.getD l.pos 0)).store l.pos aux
    refreshSingleLine (if l.pos ≠ l.len - 1 then { l with pos := l.pos + 1 } else l)
  else l

section Terminal

variable (tty : Nat → Bool)

/-- `linenoiseEditInsert`, and whether it answers 0. -/
def linenoiseEditInsert (c : UInt8) (l : LinenoiseState) : Bool × LinenoiseState :=
  if l.len < l.buflen then
    if l.len = l.pos then
      let l := l.store l.pos c
      let l := { l with pos := l.pos + 1, len := l.len + 1 }
      let l := l.store l.len 0
      if l.prompt.length + l.len < l.cols then
        if tty l.output.length then (true, l.write [c]) else (false, l)
      else (true, refreshSingleLine l)
    else
      let l := l.memmove (l.pos + 1) l.pos (l.len - l.pos)
      let l := l.store l.pos c
      let l := { l with pos := l.pos + 1, len := l.len + 1 }
      (true, refreshSingleLine (l.store l.len 0))
  else (true, l)

/-- The escape sequences, from the byte after `ESC` on. -/
def escapeSequence (keys : List UInt8) (l : LinenoiseState) : List UInt8 × LinenoiseState :=
  match keys with
  | 91 :: c :: keys =>
    if 48 ≤ c ∧ c ≤ 57 then
      match keys with
      | [] => ([], l)
      | d :: keys => (keys, if d = 126 ∧ c = 51 then linenoiseEditDelete l else l)
    else (keys,
      if c = 65 then linenoiseEditHistoryNext 1 l
      else if c = 66 then linenoiseEditHistoryNext (-1) l
      else if c = 67 then linenoiseEditMoveRight l
      else if c = 68 then linenoiseEditMoveLeft l
      else if c = 72 then linenoiseEditMoveHome l
      else if c = 70 then linenoiseEditMoveEnd l
      else l)
  | 79 :: c :: keys => (keys,
      if c = 72 then linenoiseEditMoveHome l
      else if c = 70 then linenoiseEditMoveEnd l
      else l)
  | _ :: _ :: keys => (keys, l)
  | _ => ([], l)

/-- `switch (c)` in `linenoiseEdit`. -/
def editKey (c : UInt8) (keys : List UInt8) (l : LinenoiseState) : Flow × List UInt8 × LinenoiseState :=
  let popped := { l with history := l.history.dropLast }
  if c = 13 then (.line, keys, popped)
  else if c = 3 then (.null, keys, l)
  else if c = 127 ∨ c = 8 then (.next, keys, linenoiseEditBackspace l)
  else if c = 4 then
    if 0 < l.len then (.next, keys, linenoiseEditDelete l) else (.null, keys, popped)
  else if c = 20 then (.next, keys, swapCharacters l)
  else if c = 2 then (.next, keys, linenoiseEditMoveLeft l)
  else if c = 6 then (.next, keys, linenoiseEditMoveRight l)
  else if c = 16 then (.next, keys, linenoiseEditHistoryNext 1 l)
  else if c = 14 then (.next, keys, linenoiseEditHistoryNext (-1) l)
  else if c = 27 then (.next, escapeSequence keys l)
  else if c = 21 then (.next, keys, refreshSingleLine { l.store 0 0 with pos := 0, len := 0 })
  else if c = 11 then (.next, keys, refreshSingleLine { l.store l.pos 0 with len := l.pos })
  else if c = 1 then (.next, keys, linenoiseEditMoveHome l)
  else if c = 5 then (.next, keys, linenoiseEditMoveEnd l)
  else if c = 12 then (.next, keys, refreshSingleLine (l.write [27, 91, 72, 27, 91, 50, 74]))
  else if c = 23 then (.next, keys, linenoiseEditDeletePrevWord l)
  else
    let (ok, l) := linenoiseEditInsert tty c l
    (if ok then .next else .null, keys, l)

/-! ### Completion -/

/-- Show the candidate in the place of the line, or the line when there is none. -/
def showCompletion (name : Option Bytes) (l : LinenoiseState) : LinenoiseState :=
  match name with
  | none => refreshSingleLine l
  | some name =>
    let shown := refreshSingleLine { l with buf := name ++ [0], len := strlen name, pos := strlen name }
    { l with output := shown.output, outside := shown.outside }

/-- `snprintf(ls->buf, ls->buflen, "%s", name)`. -/
def acceptCompletion (name : Bytes) (l : LinenoiseState) : LinenoiseState :=
  let written := name.take (l.buflen - 1) ++ [0]
  { l with
    buf := written ++ l.buf.drop written.length, len := strlen name, pos := strlen name
    outside := l.outside || decide (l.buf.length < written.length) }

/-- `completeLine` from the candidate `i` on: the last character that was read, if reading has not failed. -/
def completeLine (names : List Bytes) : Nat → List UInt8 → LinenoiseState → Option UInt8 × List UInt8 × LinenoiseState
  | i, [], l => (none, [], showCompletion names[i]? l)
  | i, c :: keys, l =>
    let l := showCompletion names[i]? l
    if c = 9 then completeLine names ((i + 1) % (names.length + 1)) keys l
    else if c = 27 then (some c, keys, if i < names.length then refreshSingleLine l else l)
    else (some c, keys, match names[i]? with
      | some name => acceptCompletion name l
      | none => l)

/-- The candidates are listed, and the prompt and the line are written again. -/
def listCompletions (names : List Bytes) (l : LinenoiseState) : LinenoiseState :=
  ((l.write ([10] ++ names.flatMap (· ++ [9]) ++ [10])).write l.prompt).write (cstring l.buf)

/-! ### Reading a line -/

variable (complete : List Bytes → List Bytes)

/-- The loop of `linenoiseEdit`, for at most `n` rounds. -/
def editLoop : Nat → List UInt8 → LinenoiseState → Flow × List UInt8 × LinenoiseState
  | 0, keys, l => (.line, keys, l)
  | _ + 1, [], l => (.line, [], l)
  | n + 1, c :: keys, l =>
    let enter (r : Flow × List UInt8 × LinenoiseState) : Flow × List UInt8 × LinenoiseState :=
      if r.1 = .next then editLoop n r.2.1 r.2.2 else r
    if c = 9 then
      let l := { l with asked := l.asked ++ [cstring l.buf], outside := l.outside || decide (0 ∉ l.buf) }
      let names := complete l.asked
      if names.length ≤ 1 then
        let (c, keys, l) := if names = [] then (some 0, keys, l) else completeLine names 0 keys l
        match c with
        -- `c` is a `char`, and characters from 128 on are negative
        | none => (.line, keys, l)
        | some c =>
          if 128 ≤ c then (.line, keys, l)
          else if c = 0 then editLoop n keys l
          else enter (editKey tty c keys l)
      else editLoop n keys (listCompletions names l)
    else enter (editKey tty c keys l)

/-- `linenoise`: the line, if there is one, what is left of the keys, and the state in the end.  `stack` is the memory in
which the line is edited. -/
def linenoise (cols maxLen : Nat) (prompt stack : Bytes) (keys : List UInt8) (history : List Bytes)
    (asked : List Bytes) : Option Bytes × List UInt8 × LinenoiseState :=
  let l : LinenoiseState := {
    buf := stack.set 0 0, buflen := stack.length - 1, prompt, pos := 0, len := 0, cols, historyIndex := 0
    history := linenoiseHistoryAdd maxLen [] history, output := [prompt], asked
    outside := decide (stack = []) }
  let (flow, keys, l) := editLoop tty complete keys.length keys l
  if flow = .null then (none, keys, l)
  else (some (cstring l.buf), keys, { l with outside := l.outside || decide (0 ∉ l.buf) })

end Terminal

end ZkClient
