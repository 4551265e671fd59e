import Mathlib.Data.Int.Notation
import Mathlib.Data.Nat.Notation
import Mathlib.Logic.Function.Basic

/-! # `editor.c`: the line editor

The text is a doubly linked list of lines between `headNode` and `tailNode`, and `curNode` and
`currentLine` are a cached position in it.  Node addresses are natural numbers with 0 for `NULL`,
and `malloc` picks an address that no node has.  What the editor writes to the console is left
out.  A function that would not come back, because it reads through `NULL` or an uninitialized
pointer, divides by zero or loops for ever, has no result.  The arguments of a command are the
whole buffer, with old bytes behind the NUL. -/
namespace Xv6.Editor
open Function (update)

def BUF_LINE_LENGTH : ℕ := 512
def LINE_IDX_SPACE : ℕ := 5

structure State where
  next : ℕ → ℕ
  prev : ℕ → ℕ
  content : ℕ → List UInt8
  /-- the addresses that are in use -/
  nodes : List ℕ
  fileLineNum : ℤ
  showLineIdx : Bool
  isDirty : Bool
  headShowLine : ℤ
  currentLine : ℤ
  headNode : ℕ
  tailNode : ℕ
  curNode : ℕ

/-- What the system answers: the address that `malloc` returns for a node, with those in use, and
whether the file of a save can be opened. -/
structure Env where
  alloc : List ℕ → ℕ
  fresh : ∀ nodes, alloc nodes ∉ nodes
  ne_null : ∀ nodes, alloc nodes ≠ 0
  opens : Bool

/-- `newNode(prev)` with the address of the node. -/
def newNode (env : Env) (s : State) (prev : ℕ) : State × ℕ :=
  if prev = 0 then (s,0)
  else
    let node := env.alloc s.nodes
    let next := s.next prev
    let s := { s with
      prev := update (if next ≠ 0 then update s.prev next node else s.prev) node prev
      next := update (update s.next prev node) node next
      content := update s.content node []
      nodes := node :: s.nodes
      fileLineNum := s.fileLineNum + 1
      isDirty := true
      curNode := s.headNode
      currentLine := 0 }
    (s,node)

/-- `deleteNode(node)` with the node behind it. -/
def deleteNode (s : State) (node : ℕ) : State × ℕ :=
  if node = 0 ∨ node = s.headNode ∨ node = s.tailNode then (s,0)
  else
    let next := s.next node
    let prev := s.prev node
    let s := { s with
      next := update (update s.next prev next) node 0
      prev := update (update s.prev next prev) node 0
      content := update s.content node []
      nodes := s.nodes.erase node
      fileLineNum := s.fileLineNum - 1
      isDirty := true
      curNode := s.headNode
      currentLine := 0 }
    (s,next)

def initList (env : Env) : State :=
  let tail := env.alloc []
  let head := env.alloc [tail]
  { next := update (update (fun _ => 0) tail 0) head tail
    prev := update (update (fun _ => 0) tail head) head 0
    content := fun _ => []
    nodes := [head, tail]
    fileLineNum := 0
    showLineIdx := true
    isDirty := false
    headShowLine := 0
    currentLine := 0
    headNode := head
    tailNode := tail
    curNode := 0 }

def freeLoop (tmp : ℕ) : ℕ → State → ℕ → Option State
  | 0, _, _ => none
  | fuel + 1, s, now =>
    if now = tmp then some s
    else
      let (s,now) := deleteNode s now
      if now = 0 then some s else freeLoop tmp fuel s now

def freeList (s : State) (start stop : ℕ) : Option State :=
  if start = s.headNode ∨ stop = s.tailNode then some s
  else if stop = 0 then none
  else freeLoop (s.next stop) (s.nodes.length + 1) s start

/-- A loop of `findNode`: `while(!stop(now)) { if(lineIdx == index) break; now = step(now); .. }`,
where `stop` may read through `now`. -/
def walk (stop : ℕ → Option Bool) (step : ℕ → ℕ) (d : ℤ) (index : ℤ) : ℕ → ℕ → ℤ → Option ℕ
  | 0, _, _ => none
  | fuel + 1, now, lineIdx =>
    match stop now with
    | none => none
    | some true => some now
    | some false =>
      if lineIdx = index then some now
      else if now = 0 then none
      else walk stop step d index fuel (step now) (lineIdx + d)

def fieldIs (field : ℕ → ℕ) (x now : ℕ) : Option Bool :=
  if now = 0 then none else some (field now = x)

/-- `findNode(index)`, where 0 is `NULL`. -/
def findNode (s : State) (index : ℤ) : Option ℕ :=
  let fuel := s.nodes.length + 1
  let isCur := fun now => some (decide (now = s.curNode))
  if index > s.fileLineNum ∨ index < 0 then some 0
  else if index ≤ s.currentLine then
    if index - 1 ≤ s.currentLine - index then
      walk isCur s.next 1 index fuel (s.next s.headNode) 1
    else walk (fieldIs s.prev s.headNode) s.prev (-1) index fuel s.curNode s.currentLine
  else if index - s.currentLine ≤ s.fileLineNum - index then
    walk (fieldIs s.next s.tailNode) s.next 1 index fuel s.curNode s.currentLine
  else walk isCur s.prev (-1) index fuel (s.prev s.tailNode) s.fileLineNum

/-- `while (idx%mod == 0) mod /= 10` -/
def idxMod (idx : ℤ) : ℕ → ℤ → Option ℤ
  | 0, _ => none
  | fuel + 1, mod =>
    if mod = 0 then none
    else if idx % mod = 0 then idxMod idx fuel (mod / 10)
    else some mod

def idxDigits (idx : ℤ) : ℕ → ℤ → List ℤ
  | 0, _ => []
  | n + 1, mod =>
    if mod ≥ 1 then (48 + idx / mod % 10) :: idxDigits idx n (mod / 10) else 32 :: idxDigits idx n mod

/-- `idx2Str(idx)`: there is none where it divides by zero. -/
def idx2Str (idx : ℤ) : Option (List ℤ) :=
  if idx ≠ -1 then (idxMod idx 6 10000).map fun mod => idxDigits idx LINE_IDX_SPACE (mod / 10)
  else some (idxDigits idx LINE_IDX_SPACE 0)

/-- The byte of a string, which ends with a NUL. -/
def byteAt (str : List UInt8) (i : ℕ) : UInt8 := str.getD i 0

def isEnd (c : UInt8) : Bool := c = 32 || c = 0 || c = 10

def str2IdxLoop (str : List UInt8) : ℕ → ℕ → ℤ → ℤ
  | 0, i, idx => if isEnd (byteAt str i) then idx else -1
  | fuel + 1, i, idx =>
    let c := byteAt str i
    if isEnd c then idx
    else str2IdxLoop str fuel (i + 1)
      (if 48 ≤ c ∧ c ≤ 57 then idx * 10 + (c.toNat - 48 : ℤ) else idx)

/-- `str2Idx(str)`: other bytes than digits are skipped. -/
def str2Idx (str : List UInt8) : ℤ := str2IdxLoop str LINE_IDX_SPACE 0 0

/-- The text up to the NUL or a newline. -/
def textOf (args : List UInt8) : List UInt8 := args.takeWhile fun c => c != 0 && c != 10

def State.setContent (s : State) (node : ℕ) (str : List UInt8) : State :=
  { s with content := update s.content node str }

/-- The node that `ins` puts the line behind. -/
def insPrev (s : State) (idx : ℤ) : Option ℕ := if idx = 0 then some s.headNode else findNode s idx

def ins (env : Env) (s : State) (idx : ℤ) (args : List UInt8) : Option State := do
  let prev ← insPrev s idx
  if prev = 0 then return s
  else
    let r := newNode env s prev
    let _ ← idx2Str (idx + 1)
    return r.1.setContent r.2 (textOf args)

/-- `mod(idx, args)`: for `idx == 0` it goes on with an uninitialized pointer. -/
def mod (env : Env) (s : State) (idx : ℤ) (args : List UInt8) : Option State := do
  if idx = 0 then none
  else
    let node ← findNode s idx
    if node = 0 then none
    else
      let prev := s.prev node
      if prev = 0 then return s
      else
        let s := (deleteNode s (s.next prev)).1
        let r := newNode env s prev
        let _ ← idx2Str idx
        return r.1.setContent r.2 (textOf args)

def num (s : State) (args : List UInt8) : State :=
  if byteAt args 0 = 0 then { s with showLineIdx := !s.showLineIdx }
  else if byteAt args 1 = 0 then
    -- the bytes 0 and 1, not the digits
    if byteAt args 0 = 0 then { s with showLineIdx := false }
    else if byteAt args 0 = 1 then { s with showLineIdx := true }
    else s
  else s

/-- The offset of the first blank, NUL or newline. -/
def wordLength (args : List UInt8) : ℕ := (args.takeWhile fun c => !isEnd c).length

/-- The arguments behind the first word and the blank after it. -/
def restArgs (args : List UInt8) : List UInt8 := args.drop (wordLength args + 1)

/-- The line numbers of `del`, when it has them. -/
def delRange (s : State) (args : List UInt8) : Option (ℤ × ℤ) :=
  if byteAt args 0 = 0 then some (s.fileLineNum,s.fileLineNum)
  else
    let idx1 := str2Idx args
    if idx1 = -1 then none
    else if byteAt args (wordLength args) ≠ 32 then some (idx1,idx1)
    else
      let idx2 := str2Idx (restArgs args)
      if idx2 = -1 then none else some (idx1,idx2)

def del (s : State) (args : List UInt8) : Option State :=
  match delRange s args with
  | none => some s
  | some (idx1,idx2) =>
    if idx1 ≤ idx2 then do
      freeList s (← findNode s idx1) (← findNode s idx2)
    else some s

/-- The line numbers of `cut`, when it has them. -/
def cutRange (args : List UInt8) : Option (ℤ × ℤ × ℤ) :=
  if byteAt args 0 = 0 then none
  else
    let idx1 := str2Idx args
    if idx1 = -1 ∨ byteAt args (wordLength args) ≠ 32 then none
    else
      let args := restArgs args
      let idx2 := str2Idx args
      if idx2 = -1 ∨ byteAt args (wordLength args) ≠ 32 then none
      else
        let tar := str2Idx (restArgs args)
        if tar = -1 then none else some (idx1,idx2,tar)

/-- The six assignments of `cut`. -/
def relink (s : State) (nidx1 nidx2 ntar : ℕ) : State :=
  let s := { s with next := update s.next (s.prev nidx1) (s.next nidx2) }
  let s := { s with prev := update s.prev (s.next nidx2) (s.prev nidx1) }
  let s := { s with prev := update s.prev (s.next ntar) nidx2 }
  let s := { s with next := update s.next nidx2 (s.next ntar) }
  let s := { s with next := update s.next ntar nidx1 }
  { s with prev := update s.prev nidx1 ntar }

def cut (s : State) (args : List UInt8) : Option State :=
  match cutRange args with
  | none => some s
  | some (idx1,idx2,tar) =>
    if idx1 ≤ idx2 ∧ (tar < idx1 ∨ tar > idx2) then do
      let nidx1 ← findNode s idx1
      let nidx2 ← findNode s idx2
      let ntar ← findNode s tar
      if nidx1 = 0 ∨ nidx2 = 0 ∨ ntar = 0 then none
      else return relink s nidx1 nidx2 ntar
    else some s

/-- The index is written, and counted, with the first part of a line. -/
def countLine (s : State) : Option State :=
  if s.showLineIdx then
    (idx2Str s.currentLine).map fun _ => { s with currentLine := s.currentLine + 1 }
  else some s

def showLoop (endIndex : ℤ) : ℕ → State → Option State
  | 0, _ => none
  | fuel + 1, s =>
    if s.curNode = s.tailNode then some s
    else if s.curNode = 0 then none
    else do
      let s ← countLine s
      let s := { s with curNode := s.next s.curNode }
      if s.currentLine > endIndex then return s else showLoop endIndex fuel s

/-- The line of `showFile`, no line behind the last one. -/
def showIndex (s : State) (index : ℤ) : ℤ :=
  if index > s.fileLineNum then s.fileLineNum else index

/-- The line that `showFile` starts at, with `headShowLine` moved back for a negative `lines`. -/
def showBack (s : State) (index lines : ℤ) : State × ℤ :=
  if lines < 0 then
    let shown := s.headShowLine + lines - 1
    let shown := if shown < 0 then 1 else shown
    ({ s with headShowLine := shown },shown)
  else (s,if index < 0 then 1 else index)

def showEnd (s : State) (index lines : ℤ) : ℤ :=
  showIndex s (if lines < 0 then index - lines else index + lines)

/-- The cursor at the line `index`, with `endIndex`: there is none where `showFile` returns. -/
def showFrom (s : State) (index lines : ℤ) : Option (State × Option ℤ) :=
  (findNode s index).map fun tmp =>
    if tmp = 0 then (s,none)
    else ({ s with curNode := tmp, currentLine := index, headShowLine := index },
      some (showEnd s index lines))

/-- `showFile` up to its loop. -/
def showStart (s : State) (index lines : ℤ) : Option (State × Option ℤ) :=
  if showIndex s index = 0 then
    some ({ s with curNode := s.next s.headNode, currentLine := 1, headShowLine := 1 },
      some s.fileLineNum)
  else
    let r := showBack s (showIndex s index) lines
    showFrom r.1 r.2 lines

def showFile (s : State) (index lines : ℤ) : Option State :=
  if s.fileLineNum = 0 then some s
  else do
    let r ← showStart s index lines
    match r.2 with
    | none => return r.1
    | some endIndex => showLoop endIndex (r.1.nodes.length + 1) r.1

/-- The loop of `saveFile`, with the bytes in the buffer and those written. -/
def saveLoop (s : State) : ℕ → ℕ → List UInt8 → List UInt8 → Option (List UInt8)
  | 0, _, _, _ => none
  | fuel + 1, now, buf, out =>
    if now = s.tailNode then some (out ++ buf)
    else if now = 0 then none
    else if buf.length + (s.content now).length + 1 < BUF_LINE_LENGTH then
      saveLoop s fuel (s.next now) (buf ++ s.content now ++ [10]) out
    else saveLoop s fuel now [] (out ++ buf)

/-- `saveFile` with what it writes to the file.  A line that does not fit into the buffer is waited
for for ever. -/
def saveFile (env : Env) (s : State) : Option (State × List UInt8) :=
  if env.opens then
    (saveLoop s (2 * s.nodes.length + 1) (s.next s.headNode) [] []).map fun out =>
      ({ s with isDirty := false },out)
  else some (s,[])

/-- The node of the line that `loadFile` reads: a new one, or `now` where the line goes on. -/
def lineNode (env : Env) (s : State) : Option ℕ → State × ℕ
  | none => newNode env s (s.prev s.tailNode)
  | some now => (s,now)

/-- The loop of `loadFile` over the `len` bytes of a read.  `scan` is the node of a line that goes
on, and behind the buffer is `oob`. -/
def loadLoop (env : Env) (buf : List UInt8) (oob : UInt8) (len : ℕ) :
    ℕ → ℕ → State → Option ℕ → State × Option ℕ
  | 0, _, s, scan => (s,scan)
  | fuel + 1, start, s, scan =>
    if start < len then
      let line := ((buf.take len).drop start).takeWhile fun c => c != 10
      let stop := start + line.length
      let r := lineNode env s scan
      -- at the end of the read the byte at `stop` is an old one
      loadLoop env buf oob len fuel (stop + 1) (r.1.setContent r.2 (r.1.content r.2 ++ line))
        (if buf.getD stop oob = 10 then none else some r.2)
    else (s,scan)

/-- The reads of `loadFile`: each overwrites the start of the buffer. -/
def loadReads (env : Env) (oob : UInt8) :
    List (List UInt8) → List UInt8 → State → Option ℕ → State
  | [], _, s, _ => s
  | read :: reads, buf, s, scan =>
    let buf := read ++ buf.drop read.length
    let r := loadLoop env buf oob read.length read.length 0 s scan
    loadReads env oob reads buf r.1 r.2

/-- `loadFile`, and the start of `cmdLoop`. -/
def load (env : Env) (oob : UInt8) (reads : List (List UInt8)) : State :=
  let s := loadReads env oob reads (List.replicate BUF_LINE_LENGTH 0) (initList env) none
  { s with isDirty := false, currentLine := 1, curNode := s.next s.headNode }

inductive Name where
  | i | insAt | d | m | modAt | c | l | n | p | num | w
  deriving DecidableEq, Repr

/-- The number of lines for `n` and `p`. -/
def linesArg (args : List UInt8) : ℤ := if str2Idx args ≤ 0 then 20 else str2Idx args

def cmdExec (env : Env) (s : State) (args : List UInt8) : Name → Option State
  | .i => ins env s s.fileLineNum args
  | .insAt =>
    if str2Idx args = -1 then some s
    else ins env s (str2Idx args) (args.drop ((args.takeWhile fun c => c != 32).length + 1))
  | .d => del s args
  | .m => mod env s s.fileLineNum args
  | .modAt =>
    if str2Idx args = -1 then some s
    else mod env s (str2Idx args) (args.drop ((args.takeWhile fun c => c != 32).length + 1))
  | .c => cut s args
  | .l =>
    if str2Idx args = -1 then some s
    else if str2Idx args ≠ 0 then showFile s (str2Idx args - 10) 20
    else showFile s 1 s.fileLineNum
  | .n =>
    if str2Idx args = -1 then some s
    else showFile s (s.currentLine - linesArg args / 2) (linesArg args)
  | .p =>
    if str2Idx args = -1 then some s
    else showFile s (s.currentLine + linesArg args / 2) (-linesArg args)
  | .num => some (num s args)
  | .w => (saveFile env s).map Prod.fst

end Xv6.Editor
