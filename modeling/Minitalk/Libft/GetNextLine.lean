import Mathlib.Algebra.Group.Nat.Defs
import Minitalk.Lib.CText
import Minitalk.Lib.Lines
import Minitalk.Lib.Terminated

/-! # `get_next_line` (`libft/stdio/gnl`, `libft/strings`)

Strings are on the heap; every `malloc` succeeds. A file is the list of the chunks that `read` still has to return, and
the list of descriptors is the list of its nodes: a pointer to a node is its position. -/

namespace Minitalk.Libft.GetNextLine
open Heap CText Lines

def newline : UInt8 := 10

/-- What one `read` returns before the end of the file. -/
structure Chunk (bufferSize : Nat) where
  bytes : List UInt8
  ne_nil : bytes ≠ []
  le : bytes.length ≤ bufferSize
  body : 0 ∉ bytes

/-- What is left of a file; `none` when the descriptor is not open. -/
abbrev File (bufferSize : Nat) := Option (List (Chunk bufferSize))

def content {bufferSize : Nat} (file : File bufferSize) : List UInt8 := (file.getD []).flatMap Chunk.bytes

/-! ### `ft_strlen.c`, `ft_strclen.c`, `ft_strndup.c` -/

/-- `ft_strlen(s + i)` -/
def ftStrlen (s : Ptr) (i : Nat) (heap : Heap UInt8) : Heap UInt8 × Nat :=
  let (heap, j) := heap.scan (· == 0) s i
  (heap, j - i)

/-- `ft_strclen(s + i, c)` -/
def ftStrclen (s : Ptr) (i : Nat) (c : UInt8) (heap : Heap UInt8) : Heap UInt8 × Nat :=
  if s = none then (heap, 0)
  else
    let (heap, j) := heap.scan (fun b => b == 0 || b == c) s i
    (heap, j - i)

/-- `ft_strndup(s1 + i, n)` -/
def ftStrndup (s1 : Ptr) (i n : Nat) (heap : Heap UInt8) : Heap UInt8 × Ptr :=
  if s1 = none then (heap, none)
  else
    let (heap, len) := ftStrlen s1 i heap
    let len := if n < len then n else len
    let (heap, dup) := heap.malloc (len + 1)
    let heap := heap.copyUp s1 i dup 0 len
    (heap.store dup len 0, dup)

/-! ### `get_next_line_utils.c` -/

def ftStrjoinGnl (s1 s2 : Ptr) (heap : Heap UInt8) : Heap UInt8 × Ptr :=
  let (heap, len1) := if s1.isSome then ftStrlen s1 0 heap else (heap, 0)
  let (heap, len2) := ftStrlen s2 0 heap
  let (heap, newStr) := heap.malloc (len1 + len2 + 1)
  let (heap, ptr) := if s1.isSome then heap.copyUntil (· == 0) s1 0 newStr 0 else (heap, 0)
  let (heap, ptr) := heap.copyUntil (· == 0) s2 0 newStr ptr
  let heap := heap.store newStr ptr 0
  (if s1.isSome then heap.free s1 else heap, newStr)

/-- `t_fd_list` -/
structure FdNode where
  fd : Nat
  memory : Ptr := none
deriving DecidableEq

/-- The list, and the position of the node. -/
def ftGetFdNode (fdList : List FdNode) (fd : Nat) : List FdNode × Nat :=
  match fdList.findIdx? (·.fd = fd) with
  | some i => (fdList, i)
  | none => ({ fd } :: fdList, 0)

def ftRemoveFdNode (fd : Nat) : List FdNode → Heap UInt8 → List FdNode × Heap UInt8
  | [], heap => ([], heap)
  | node :: fdList, heap =>
    if node.fd = fd then (fdList, if node.memory.isSome then heap.free node.memory else heap)
    else
      let (fdList, heap) := ftRemoveFdNode fd fdList heap
      (node :: fdList, heap)

/-! ### `get_next_line.c` -/

/-- The heap, the static `fd_list`, and what the environment holds: the open files. -/
structure State (bufferSize : Nat) where
  heap : Heap UInt8 := {}
  fdList : List FdNode := []
  files : Nat → File bufferSize

section Calls
variable {bufferSize : Nat}

/-- `read(fd, buffer, BUFFER_SIZE)` -/
def read (fd : Nat) (buffer : Ptr) (s : State bufferSize) : State bufferSize × Int :=
  match s.files fd with
  | none => (s, -1)
  | some [] => (s, 0)
  | some (chunk :: chunks) =>
    ({ s with heap := s.heap.write buffer 0 chunk.bytes, files := Function.update s.files fd (some chunks) },
      chunk.bytes.length)

def storeLoop (fd : Nat) (buffer : Ptr) : Nat → Ptr → State bufferSize → State bufferSize × Ptr
  | 0, memory, s => ({ s with heap := diverged s.heap }, memory)
  | fuel + 1, memory, s =>
    let (heap, line) := ftStrclen memory 0 newline s.heap
    let (heap, len) := ftStrclen memory 0 0 heap
    if line = len then
      let (s, bytesRead) := read fd buffer { s with heap }
      if bytesRead ≤ 0 then
        let s := { s with heap := s.heap.free buffer }
        if bytesRead = 0 then (s, memory) else (s, none)
      else
        let heap := s.heap.store buffer bytesRead.toNat 0
        let (heap, memory) := ftStrjoinGnl memory buffer heap
        storeLoop fd buffer fuel memory { s with heap }
    else ({ s with heap := heap.free buffer }, memory)

/-- Each turn of the loop reads a chunk, or ends it. -/
def ftStoreChunks (fd : Nat) (memory : Ptr) (s : State bufferSize) : State bufferSize × Ptr :=
  let (heap, buffer) := s.heap.malloc (bufferSize + 1)
  storeLoop fd buffer (((s.files fd).getD []).length + 1) memory { s with heap }

def ftGetLine (memory : Ptr) (heap : Heap UInt8) : Heap UInt8 × Ptr :=
  if memory = none then (heap, none)
  else
    let (heap, first) := heap.load memory 0
    if first = 0 then (heap, none)
    else
      let (heap, newlineIdx) := ftStrclen memory 0 newline heap
      let (heap, line) := heap.malloc (newlineIdx + 2)
      -- `ft_memmove`, from one block to another
      let heap := heap.copyUp memory 0 line 0 (newlineIdx + 1)
      (heap.store line (newlineIdx + 1) 0, line)

def ftGetLeftover (memory : Ptr) (heap : Heap UInt8) : Heap UInt8 × Ptr :=
  let (heap, ptr) := heap.scan (fun b => b == 0 || b == newline) memory 0
  let (heap, c) := heap.load memory ptr
  if c = 0 then (heap.free memory, none)
  else
    let (heap, len) := ftStrclen memory (ptr + 1) 0 heap
    let (heap, leftover) := ftStrndup memory (ptr + 1) len heap
    (heap.free memory, leftover)

/-- `fd_node->memory` -/
def memoryAt (fdList : List FdNode) (i : Nat) : Ptr := (fdList[i]?).bind FdNode.memory

/-- `fd_node->memory = memory` -/
def setMemory (fdList : List FdNode) (i : Nat) (memory : Ptr) : List FdNode :=
  fdList.modify i fun node => { node with memory }

def getNextLine (fd : Int) (s : State bufferSize) : State bufferSize × Ptr :=
  if fd < 0 ∨ bufferSize ≤ 0 then (s, none)
  else
    let (fdList, fdNode) := ftGetFdNode s.fdList fd.toNat
    let (s, memory) := ftStoreChunks fd.toNat (memoryAt fdList fdNode) { s with fdList }
    let s := { s with fdList := setMemory s.fdList fdNode memory }
    if memoryAt s.fdList fdNode = none then
      let (fdList, heap) := ftRemoveFdNode fd.toNat s.fdList s.heap
      ({ s with heap, fdList }, none)
    else
      let (heap, line) := ftGetLine (memoryAt s.fdList fdNode) s.heap
      let (heap, leftover) := ftGetLeftover (memoryAt s.fdList fdNode) heap
      let fdList := setMemory s.fdList fdNode leftover
      if line = none then
        let (fdList, heap) := ftRemoveFdNode fd.toNat fdList heap
        ({ s with heap, fdList }, none)
      else ({ s with heap, fdList }, line)

/-- The bytes in front of the first NUL of a block. -/
def string (heap : Heap UInt8) (p : Ptr) : List UInt8 :=
  (((heap.live? p).map (·.cells)).getD []).map (·.getD 0) |>.takeWhile (· ≠ 0)

/-- Null, or the start of a string that is all there, on a heap of which only live blocks were accessed. -/
structure Returned (heap : Heap UInt8) (line : Ptr) : Prop where
  sound : heap.fault = false
  terminated : line ≠ none → Terminated 0 heap line (string heap line)

/-- Calls of `get_next_line`, each with the string that it returns. -/
def calls (bufferSize : Nat) : Machine (State bufferSize) Int (Option (List UInt8)) where
  step s fd :=
    let (s, line) := getNextLine fd s
    (s, [if line = none then none else some (string s.heap line)])

end Calls

/-! ### Strings -/

section Strings
variable {h : Heap UInt8} {p q : Ptr} {t u : List UInt8} {post : List (Option UInt8)}

theorem nul_eq_false (hbody : 0 ∉ t) : ∀ b ∈ t, (b == 0) = false :=
  fun _ hb => beq_eq_false_iff_ne.mpr fun h0 => hbody (h0 ▸ hb)

theorem findIdx_nul (hbody : 0 ∉ t) : t.findIdx (· == 0) = t.length := by
  rw [List.findIdx_eq_length]
  exact nul_eq_false hbody

theorem findIdx_stop (hbody : 0 ∉ t) (c : UInt8) : t.findIdx (fun b => b == 0 || b == c) = t.idxOf c := by
  induction t with
  | nil => rfl
  | cons b t ih =>
    rw [List.mem_cons, not_or] at hbody
    have hb : (b == 0) = false := beq_eq_false_iff_ne.mpr (Ne.symm hbody.1)
    rw [List.findIdx_cons, List.idxOf_cons, ih hbody.2, hb, Bool.false_or]

theorem ftStrlen_at (pre : List (Option UInt8)) (ha : h.At p (pre ++ t.map some ++ some 0 :: post)) (hbody : 0 ∉ t) :
    ftStrlen p pre.length h = (h, t.length) := by
  simp only [ftStrlen, At.scan (fun b => b == 0) pre ha rfl, findIdx_nul hbody, Nat.add_sub_cancel_left]

theorem ftStrclen_at (pre : List (Option UInt8)) (ha : h.At p (pre ++ t.map some ++ some 0 :: post)) (hbody : 0 ∉ t)
    (c : UInt8) : ftStrclen p pre.length c h = (h, t.idxOf c) := by
  obtain ⟨a, rfl, -⟩ := ha.block
  have hscan := At.scan (fun b => b == 0 || b == c) pre ha rfl
  simp only [ftStrclen, reduceCtorEq, if_false, hscan, findIdx_stop hbody, Nat.add_sub_cancel_left]

/-- A `memory`: null, or a string. -/
def Memory (h : Heap UInt8) (p : Ptr) (t : List UInt8) : Prop := (p = none ∧ t = []) ∨ Terminated 0 h p t

theorem Memory.ftStrclen (hm : Memory h p t) (c : UInt8) : ftStrclen p 0 c h = (h, t.idxOf c) := by
  rcases hm with ⟨rfl, rfl⟩ | ⟨hbody, post, hat⟩
  · rfl
  · exact ftStrclen_at [] hat hbody c

theorem Memory.keep {h' : Heap UInt8} {as : List Nat} (hm : Memory h p t) (hk : KeepsOff as h h')
    (hp : ∀ a, p = some a → a ∉ as) : Memory h' p t := by
  rcases hm with hnull | hm
  · exact Or.inl hnull
  · obtain ⟨post, hat⟩ := hm.cells
    obtain ⟨a, rfl, -⟩ := hat.block
    exact Or.inr (hm.keep hk (hp a rfl))

theorem ftStrjoinGnl_memory (hm : Memory h p t) (hq : Terminated 0 h q u) (hne : p ≠ q) :
    ∃ h', ftStrjoinGnl p q h = (h', some h.blocks.length) ∧ Terminated 0 h' (some h.blocks.length) (t ++ u) ∧
      KeepsOff p.toList h h' ∧ h'.blocks.length = h.blocks.length + 1 := by
  obtain ⟨postq, hatq⟩ := hq.cells
  have hlen2 : ftStrlen q 0 h = (h, u.length) := ftStrlen_at [] hatq hq.body
  rcases hm with ⟨rfl, rfl⟩ | hp
  · obtain ⟨h₁, hmalloc, hnew, hlive, hkeep, hgrow⟩ := exists_malloc hatq.sound (0 + u.length + 1)
    obtain ⟨hatq₁, hneq⟩ := hlive q _ hatq
    have hcopy := Terminated.copyUntil (fun b => b == 0) ⟨hq.body, _, hatq₁⟩ hnew hneq (j := 0) (by simp)
      (nul_eq_false hq.body) rfl
    rw [Nat.zero_add] at hcopy
    obtain ⟨hstr, hkeep₁⟩ := hnew.terminate u 0 (by simp)
    refine ⟨_, by simp only [ftStrjoinGnl, Option.isSome_none, Bool.false_eq_true, if_false, hlen2, hmalloc, hcopy],
      ⟨hq.body, _, hstr⟩, hkeep _ _ hkeep₁, by simp [hgrow]⟩
  · obtain ⟨postp, hatp⟩ := hp.cells
    obtain ⟨a, rfl, -⟩ := hatp.block
    have hlen1 : ftStrlen (some a) 0 h = (h, t.length) := ftStrlen_at [] hatp hp.body
    obtain ⟨h₁, hmalloc, hnew, hlive, hkeep, hgrow⟩ := exists_malloc hatq.sound (t.length + u.length + 1)
    obtain ⟨hatp₁, hnep⟩ := hlive _ _ hatp
    obtain ⟨hatq₁, hneq⟩ := hlive _ _ hatq
    have hcopy := Terminated.copyUntil (fun b => b == 0) ⟨hp.body, _, hatp₁⟩ hnew hnep (j := 0)
      (by rw [List.length_replicate]; omega) (nul_eq_false hp.body) rfl
    obtain ⟨hat₂, hkeep₂⟩ := hnew.write t (i := 0) (by rw [List.length_replicate]; omega)
    obtain ⟨b, rfl, -⟩ := hatq.block
    have hatq₂ := hkeep₂ b (not_mem_of_ne hneq) _ hatq₁
    have hcopy₂ := Terminated.copyUntil (fun b => b == 0) ⟨hq.body, _, hatq₂⟩ hat₂ hneq (j := t.length)
      (by simp; omega) (nul_eq_false hq.body) rfl
    have hbody : 0 ∉ t ++ u := fun hmem => (List.mem_append.mp hmem).elim hp.body hq.body
    obtain ⟨hstr, hkeep₁⟩ := hnew.terminate (t ++ u) 0 (by simp)
    rw [write_append, List.length_append, Nat.zero_add] at hstr hkeep₁
    have hold := hkeep _ _ hkeep₁ a List.not_mem_nil _ hatp
    have hoff : h.blocks.length ∉ [a] := not_mem_of_ne hnep.symm
    refine ⟨_, by simp only [ftStrjoinGnl, Option.isSome_some, if_true, hlen1, hlen2, hmalloc, hcopy, Nat.zero_add,
      hcopy₂], Terminated.keep ⟨hbody, _, hstr⟩ hold.keepsOff_free hoff, ?_, by simp [hgrow]⟩
    exact ((hkeep _ _ hkeep₁).mono (List.nil_subset _)).trans hold.keepsOff_free

/-- A copy in a new block. -/
theorem ftStrndup_at (pre : List (Option UInt8)) (ha : h.At p (pre ++ t.map some ++ some 0 :: post)) (hbody : 0 ∉ t) :
    ∃ h', ftStrndup p pre.length t.length h = (h', some h.blocks.length) ∧
      Terminated 0 h' (some h.blocks.length) t ∧ KeepsOff [] h h' ∧ h'.blocks.length = h.blocks.length + 1 := by
  obtain ⟨a, rfl, -⟩ := ha.block
  obtain ⟨h₁, hmalloc, hnew, hlive, hkeep, hgrow⟩ := exists_malloc ha.sound (t.length + 1)
  obtain ⟨hat₁, hne⟩ := hlive _ _ ha
  have hcopy := At.copyUp_eq pre hat₁ hnew hne (j := 0) (by simp)
  obtain ⟨hstr, hkeep₁⟩ := hnew.terminate t 0 (by simp)
  exact ⟨_, by simp only [ftStrndup, reduceCtorEq, if_false, ftStrlen_at pre ha hbody, Nat.lt_irrefl, hmalloc, hcopy],
    ⟨hbody, _, hstr⟩, hkeep _ _ hkeep₁, by simp [hgrow]⟩

theorem ftGetLine_nil (hp : Terminated 0 h p []) : ftGetLine p h = (h, none) := by
  obtain ⟨post, hat⟩ := hp.cells
  obtain ⟨a, rfl, -⟩ := hat.block
  have hload : h.load (some a) 0 = (h, 0) := hat.load_of_getElem? rfl
  simp only [ftGetLine, reduceCtorEq, if_false, hload, if_true]

theorem ftGetLine_line (hp : Terminated 0 h p t) (ht : t ≠ []) :
    ∃ h', ftGetLine p h = (h', some h.blocks.length) ∧
      Terminated 0 h' (some h.blocks.length) (firstLine newline t) ∧ KeepsOff [] h h' ∧
      h'.blocks.length = h.blocks.length + 1 := by
  obtain ⟨hbody, post, hat⟩ := hp
  obtain ⟨a, rfl, -⟩ := hat.block
  obtain ⟨c, t', rfl⟩ := List.exists_cons_of_ne_nil ht
  have hload : h.load (some a) 0 = (h, c) := hat.load_of_getElem? rfl
  have hc : c ≠ 0 := fun h0 => hbody (h0 ▸ List.mem_cons_self)
  generalize c :: t' = t at hbody hat
  have hidx : ftStrclen (some a) 0 newline h = (h, t.idxOf newline) := ftStrclen_at [] hat hbody newline
  have hle : t.idxOf newline ≤ t.length := List.idxOf_le_length
  obtain ⟨h₁, hmalloc, hnew, hlive, hkeep, hgrow⟩ := exists_malloc hat.sound (t.idxOf newline + 2)
  obtain ⟨hat₁, hne⟩ := hlive _ _ hat
  -- what is copied, which ends with the terminator where there is no newline
  obtain ⟨vs, hvs⟩ : ∃ vs, vs = (t ++ [0]).take (t.idxOf newline + 1) := ⟨_, rfl⟩
  have hlen : vs.length = t.idxOf newline + 1 := by
    rw [hvs, List.length_take, List.length_append, List.length_singleton]
    omega
  have hcells : t.map some ++ some 0 :: post =
      [] ++ vs.map some ++ (((t ++ [0]).drop (t.idxOf newline + 1)).map some ++ post) := by
    rw [hvs, List.nil_append, ← List.append_assoc, ← List.map_append, List.take_append_drop]
    simp
  rw [hcells] at hat₁
  have hfit : t.idxOf newline + 1 < (List.replicate (t.idxOf newline + 2) (none : Option UInt8)).length := by
    rw [List.length_replicate]
    exact Nat.lt_succ_self _
  have hcopy := At.copyUp_eq [] hat₁ hnew hne (j := 0) (by omega)
  obtain ⟨hat₂, hkeep₂⟩ := hnew.terminate vs 0 (by omega)
  rw [hlen, List.length_nil] at hcopy
  rw [hlen] at hat₂ hkeep₂
  refine ⟨_, by simp only [ftGetLine, reduceCtorEq, if_false, hload, hc, hidx, hmalloc, hcopy],
    ⟨fun hmem => hbody (List.mem_of_mem_take hmem), ?_⟩, hkeep _ _ hkeep₂, by simp [hgrow]⟩
  by_cases hnl : newline ∈ t
  · have hlt := List.idxOf_lt_length_of_mem hnl
    have hfirst : vs = firstLine newline t := by rw [hvs, firstLine, List.take_append_of_le_length hlt]
    rw [← hfirst]
    exact ⟨_, hat₂⟩
  · have hlast : t.idxOf newline = t.length := List.idxOf_eq_length hnl
    have hfirst : firstLine newline t = t := by rw [firstLine, hlast, List.take_of_length_le (Nat.le_succ _)]
    have hall : vs = t ++ [0] := by rw [hvs, hlast, List.take_of_length_le (by simp)]
    rw [hfirst]
    refine ⟨some 0 :: (List.replicate (t.idxOf newline + 2) none).drop (t.idxOf newline + 1 + 1), ?_⟩
    have hmap : vs.map some = t.map some ++ [some 0] := by rw [hall, List.map_append, List.map_singleton]
    rwa [hmap, List.append_assoc] at hat₂

theorem ftGetLeftover_memory {a : Nat} (hp : Terminated 0 h (some a) t) :
    ∃ h' p', ftGetLeftover (some a) h = (h', p') ∧ Memory h' p' (behind newline t) ∧ KeepsOff [a] h h' ∧
      (p' = none ∨ p' = some h.blocks.length) ∧ h.blocks.length ≤ h'.blocks.length ∧ h'.fault = false := by
  obtain ⟨hbody, post, hat⟩ := hp
  have hscan := At.scan (fun b => b == 0 || b == newline) [] hat rfl
  rw [findIdx_stop hbody, List.length_nil, Nat.zero_add] at hscan
  by_cases hnl : newline ∈ t
  · obtain ⟨pre, rest, rfl, hpre⟩ := List.eq_append_cons_of_mem hnl
    have hidx : (pre ++ newline :: rest).idxOf newline = pre.length := by
      rw [List.idxOf_append_of_notMem hpre, List.idxOf_cons_self, Nat.add_zero]
    have hbehind : behind newline (pre ++ newline :: rest) = rest := by simp [behind, hidx]
    have hat' : h.At (some a) ((pre ++ [newline]).map some ++ rest.map some ++ some 0 :: post) := by simpa using hat
    have hload : h.load (some a) pre.length = (h, newline) := by
      refine hat.load_of_getElem? ?_
      simp
    have hrest : 0 ∉ rest := fun hmem => hbody (by simp [hmem])
    have hlen := ftStrclen_at _ hat' hrest 0
    obtain ⟨h', hdup, hstr, hkeep, hgrow⟩ := ftStrndup_at _ hat' hrest
    rw [List.idxOf_eq_length hrest] at hlen
    rw [List.length_map, List.length_append, List.length_singleton] at hlen hdup
    have hold := hkeep a List.not_mem_nil _ hat
    have hoff : h.blocks.length ∉ [a] := fun hmem => absurd (List.mem_singleton.mp hmem).symm (Nat.ne_of_lt hat.lt)
    have hline := hstr.keep hold.keepsOff_free hoff
    rw [hidx] at hscan
    rw [hbehind]
    refine ⟨_, _, by simp only [ftGetLeftover, hscan, hload, show newline ≠ 0 by decide, if_false, hlen, hdup],
      Or.inr hline, (hkeep.mono (List.nil_subset _)).trans hold.keepsOff_free, Or.inr rfl,
      by simp [hgrow], hold.free_sound⟩
  · have hbehind : behind newline t = [] := by
      rw [behind, List.idxOf_eq_length hnl, List.drop_of_length_le (Nat.le_succ _)]
    have hload : h.load (some a) t.length = (h, 0) := by
      refine hat.load_of_getElem? ?_
      simp
    rw [List.idxOf_eq_length hnl] at hscan
    rw [hbehind]
    exact ⟨_, _, by simp only [ftGetLeftover, hscan, hload, if_true], Or.inl ⟨rfl, rfl⟩, hat.keepsOff_free, Or.inl rfl,
      by simp, hat.free_sound⟩

end Strings

/-! ### Chunks -/

section Chunks
variable {bufferSize fd q : Nat} {s : State bufferSize} {p : Ptr} {t : List UInt8} {cells : List (Option UInt8)}
  {chunks : List (Chunk bufferSize)}

theorem content_cons (chunk : Chunk bufferSize) (chunks : List (Chunk bufferSize)) :
    content (some (chunk :: chunks)) = chunk.bytes ++ content (some chunks) := List.flatMap_cons

theorem Memory.body {h : Heap UInt8} (hm : Memory h p t) : 0 ∉ t := by
  rcases hm with ⟨-, rfl⟩ | hm
  · exact List.not_mem_nil
  · exact hm.body

theorem no_newline_iff (hbody : 0 ∉ t) : t.idxOf newline = t.idxOf 0 ↔ newline ∉ t := by
  rw [List.idxOf_eq_length hbody]
  exact List.idxOf_eq_length_iff

/-- What is read: a new leftover, for chunks that the file has less. Nothing else changes but the blocks `as`. -/
structure Stored (fd : Nat) (as : List Nat) (p : Ptr) (s s' : State bufferSize) (p' : Ptr) (t' : List UInt8)
    (chunks' : List (Chunk bufferSize)) : Prop where
  memory : Memory s'.heap p' t'
  files : s'.files = Function.update s.files fd (some chunks')
  fdList : s'.fdList = s.fdList
  keep : KeepsOff as s.heap s'.heap
  fresh : p' = p ∨ ∃ a, p' = some a ∧ s.heap.blocks.length ≤ a
  grows : s.heap.blocks.length ≤ s'.heap.blocks.length
  sound : s'.heap.fault = false

/-- The end of the loop. -/
theorem stored_of_free (hfile : s.files fd = some chunks) (hm : Memory s.heap p t) (hq : s.heap.At (some q) cells)
    (hne : p ≠ some q) :
    Stored fd (q :: p.toList) p s { s with heap := s.heap.free (some q) } p t chunks where
  memory := hm.keep hq.keepsOff_free fun a ha => not_mem_of_ne (ha ▸ hne)
  files := (Function.update_eq_self_iff.mpr hfile.symm).symm
  fdList := rfl
  keep := hq.keepsOff_free.mono (by simp)
  fresh := Or.inl rfl
  grows := Nat.le_of_eq (length_free _ _).symm
  sound := hq.free_sound

/-- What is read of an open file goes up to a newline, or up to its end. -/
theorem storeLoop_reads {fuel : Nat} (hfile : s.files fd = some chunks) (hfuel : chunks.length < fuel)
    (hm : Memory s.heap p t) (hq : s.heap.At (some q) cells) (hcells : cells.length = bufferSize + 1)
    (hne : p ≠ some q) :
    ∃ s' p' t' chunks', storeLoop fd (some q) fuel p s = (s', p') ∧ Stored fd (q :: p.toList) p s s' p' t' chunks' ∧
      (newline ∈ t' ∨ chunks' = []) ∧ t' ++ content (some chunks') = t ++ content (some chunks) := by
  induction chunks generalizing s p t cells fuel with
  | nil =>
    obtain ⟨fuel, rfl, -⟩ := Program.exists_fuel hfuel
    have hend : storeLoop fd (some q) (fuel + 1) p s = ({ s with heap := s.heap.free (some q) }, p) := by
      simp only [storeLoop, hm.ftStrclen]
      split
      · simp only [read, hfile]
        rfl
      · rfl
    exact ⟨_, p, t, [], hend, stored_of_free hfile hm hq hne, Or.inr rfl, rfl⟩
  | cons chunk chunks ih =>
    obtain ⟨fuel, rfl, hle⟩ := Program.exists_fuel hfuel
    by_cases hnl : newline ∈ t
    · have hend : storeLoop fd (some q) (fuel + 1) p s = ({ s with heap := s.heap.free (some q) }, p) := by
        simp only [storeLoop, hm.ftStrclen, no_newline_iff hm.body, not_not.mpr hnl, if_false]
      exact ⟨_, p, t, _, hend, stored_of_free hfile hm hq hne, Or.inl hnl, rfl⟩
    · have hlen : chunk.bytes.length < cells.length := by rw [hcells]; exact Nat.lt_succ_of_le chunk.le
      obtain ⟨hat, hkeep₁⟩ := hq.terminate chunk.bytes 0 hlen
      have hm₁ := hm.keep hkeep₁ fun a ha => not_mem_of_ne (ha ▸ hne)
      obtain ⟨h₂, hjoin, hstr, hkeep₂, hgrow₂⟩ := ftStrjoinGnl_memory hm₁ ⟨chunk.body, _, hat⟩ hne
      rw [length_store, length_write] at hjoin hstr hgrow₂
      have hq₂ := hkeep₂ q (fun hmem => hne (Option.mem_toList.mp hmem)) _ hat
      have hlive : ∀ a cells, s.heap.At (some a) cells → a ≠ s.heap.blocks.length := fun a _ ha => Nat.ne_of_lt ha.lt
      have hread : ¬(chunk.bytes.length : Int) ≤ 0 := by
        have := List.length_pos_of_ne_nil chunk.ne_nil
        omega
      have hstep : storeLoop fd (some q) (fuel + 1) p s = storeLoop fd (some q) fuel (some s.heap.blocks.length)
          { s with heap := h₂, files := Function.update s.files fd (some chunks) } := by
        simp only [storeLoop, hm.ftStrclen, no_newline_iff hm.body, hnl, not_false_eq_true, if_true, read, hfile, hread,
          if_false, Int.toNat_natCast, hjoin]
      obtain ⟨s', p', t', chunks', hloop, hs', hstop, htext⟩ :=
        ih (s := { s with heap := h₂, files := Function.update s.files fd (some chunks) }) (Function.update_self ..)
          hle (Or.inr hstr) hq₂ (by simp; omega)
          (fun heq => hlive q _ hq (Option.some.inj heq).symm)
      refine ⟨s', p', t', chunks', hstep.trans hloop, ⟨hs'.memory, ?_, hs'.fdList, fun a ha cells hat => ?_, Or.inr ?_,
        ?_, hs'.sound⟩, hstop, ?_⟩
      · rw [hs'.files, Function.update_idem]
      · rw [List.mem_cons, not_or] at ha
        refine hs'.keep a (fun hmem => ?_) _ (hkeep₂ a ha.2 _ (hkeep₁ a (by simpa using ha.1) _ hat))
        rcases List.mem_cons.mp hmem with hmem | hmem
        · exact ha.1 hmem
        · exact hlive a _ hat (by simpa using hmem)
      · rcases hs'.fresh with rfl | ⟨a, ha, hle⟩
        · exact ⟨_, rfl, Nat.le_refl _⟩
        · exact ⟨a, ha, Nat.le_trans (by simp only [hgrow₂]; exact Nat.le_succ _) hle⟩
      · exact Nat.le_trans (by simp only [hgrow₂]; exact Nat.le_succ _) hs'.grows
      · rw [htext, content_cons, List.append_assoc]

theorem ftStoreChunks_reads (hfile : s.files fd = some chunks) (hm : Memory s.heap p t) (hs : s.heap.fault = false) :
    ∃ s' p' t' chunks', ftStoreChunks fd p s = (s', p') ∧ Stored fd p.toList p s s' p' t' chunks' ∧
      (newline ∈ t' ∨ chunks' = []) ∧ t' ++ content (some chunks') = t ++ content (some chunks) := by
  obtain ⟨h₁, hmalloc, hnew, hlive, hkeep, hgrow⟩ := exists_malloc hs (bufferSize + 1)
  have hm₁ : Memory h₁ p t := hm.keep (hkeep [] h₁ fun _ _ _ hat => hat) fun _ _ => List.not_mem_nil
  have hne : p ≠ some s.heap.blocks.length := by
    rcases hm with ⟨rfl, -⟩ | hm
    · nofun
    · obtain ⟨post, hat⟩ := hm.cells
      exact (hlive _ _ hat).2
  obtain ⟨s', p', t', chunks', hloop, hs', hstop, htext⟩ :=
    storeLoop_reads (s := { s with heap := h₁ }) hfile (Nat.lt_succ_self _) hm₁ hnew List.length_replicate hne
  refine ⟨s', p', t', chunks', ?_, ⟨hs'.memory, hs'.files, hs'.fdList, hkeep _ _ hs'.keep, ?_, ?_, hs'.sound⟩,
    hstop, htext⟩
  · rw [← hloop]
    simp only [ftStoreChunks, hmalloc, hfile, Option.getD_some]
  · exact hs'.fresh.imp_right fun ⟨a, ha, hle⟩ => ⟨a, ha, Nat.le_trans (hgrow ▸ Nat.le_succ _) hle⟩
  · exact Nat.le_trans (hgrow ▸ Nat.le_succ _) hs'.grows

/-- A descriptor that is not open. -/
theorem ftStoreChunks_closed (hfile : s.files fd = none) (hm : Memory s.heap p []) (hs : s.heap.fault = false) :
    ∃ h', ftStoreChunks fd p s = ({ s with heap := h' }, none) ∧ KeepsOff [] s.heap h' ∧
      s.heap.blocks.length ≤ h'.blocks.length ∧ h'.fault = false := by
  obtain ⟨h₁, hmalloc, hnew, -, hkeep, hgrow⟩ := exists_malloc hs (bufferSize + 1)
  have hm₁ : Memory h₁ p [] := hm.keep (hkeep [] h₁ fun _ _ _ hat => hat) fun _ _ => List.not_mem_nil
  refine ⟨h₁.free (some s.heap.blocks.length), ?_, hkeep _ _ hnew.keepsOff_free, by simp [hgrow], hnew.free_sound⟩
  simp only [ftStoreChunks, hmalloc, hfile, storeLoop, hm₁.ftStrclen, List.idxOf_nil, if_true, read]
  rfl

end Chunks

/-! ### The list of descriptors -/

section FdList
variable {h h' : Heap UInt8} {fdList pre post : List FdNode} {node : FdNode} {fd : Nat} {p p' : Ptr} {t' : List UInt8}
  {texts : Nat → List UInt8}

/-- Each node has its leftover, in a block of its own. -/
structure Owned (h : Heap UInt8) (fdList : List FdNode) (texts : Nat → List UInt8) : Prop where
  sound : h.fault = false
  nodup : (fdList.map FdNode.fd).Nodup
  blocks : (fdList.filterMap FdNode.memory).Nodup
  memory : ∀ node ∈ fdList, Memory h node.memory (texts node.fd)
  absent : ∀ fd, fd ∉ fdList.map FdNode.fd → texts fd = []

theorem Memory.lt {a : Nat} {t : List UInt8} (hm : Memory h (some a) t) : a < h.blocks.length := by
  rcases hm with ⟨hnull, -⟩ | hm
  · cases hnull
  · obtain ⟨post, hat⟩ := hm.cells
    exact hat.lt

theorem findIdx_fdNode (fdList : List FdNode) (fd : Nat) :
    (fd ∉ fdList.map FdNode.fd ∧ fdList.findIdx? (·.fd = fd) = none) ∨
      ∃ pre p post, fdList = pre ++ { fd, memory := p } :: post ∧ fdList.findIdx? (·.fd = fd) = some pre.length := by
  induction fdList with
  | nil => exact Or.inl ⟨List.not_mem_nil, rfl⟩
  | cons node fdList ih =>
    by_cases hfd : node.fd = fd
    · subst hfd
      exact Or.inr ⟨[], node.memory, fdList, rfl, by simp [List.findIdx?_cons]⟩
    · rcases ih with ⟨hfresh, hnone⟩ | ⟨pre, p, post, rfl, hsome⟩
      · refine Or.inl ⟨by simpa [Ne.symm hfd] using hfresh, by simp [List.findIdx?_cons, hfd, hnone]⟩
      · exact Or.inr ⟨node :: pre, p, post, rfl, by simp [List.findIdx?_cons, hfd, hsome]⟩

theorem memoryAt_mid (pre post : List FdNode) (node : FdNode) :
    memoryAt (pre ++ node :: post) pre.length = node.memory := by
  simp [memoryAt]

theorem setMemory_mid (pre post : List FdNode) (node : FdNode) (p : Ptr) :
    setMemory (pre ++ node :: post) pre.length p = pre ++ { node with memory := p } :: post := by
  induction pre with
  | nil => rfl
  | cons m pre ih => exact congrArg (m :: ·) ih

theorem ftRemoveFdNode_mid (post : List FdNode) (h : Heap UInt8) (hfd : node.fd ∉ pre.map FdNode.fd) :
    ftRemoveFdNode node.fd (pre ++ node :: post) h =
      (pre ++ post, if node.memory.isSome then h.free node.memory else h) := by
  induction pre with
  | nil => simp [ftRemoveFdNode]
  | cons m pre ih =>
    rw [List.map_cons, List.mem_cons, not_or] at hfd
    simp only [List.cons_append, ftRemoveFdNode, Ne.symm hfd.1, if_false, ih hfd.2]

/-- The node of the descriptor, which is new if there was none. -/
theorem Owned.getFdNode (ho : Owned h fdList texts) (fd : Nat) :
    ∃ pre p post, ftGetFdNode fdList fd = (pre ++ { fd, memory := p } :: post, pre.length) ∧
      Owned h (pre ++ { fd, memory := p } :: post) texts := by
  rcases findIdx_fdNode fdList fd with ⟨hfresh, hnone⟩ | ⟨pre, p, post, rfl, hsome⟩
  · refine ⟨[], none, fdList, by simp only [ftGetFdNode, hnone]; rfl, ho.sound, ?_, by simpa using ho.blocks, ?_, ?_⟩
    · exact List.nodup_cons.mpr ⟨hfresh, ho.nodup⟩
    · rintro node (_ | ⟨_, hmem⟩)
      · exact Or.inl ⟨rfl, ho.absent fd hfresh⟩
      · exact ho.memory node hmem
    · exact fun fd' hfd' => ho.absent fd' fun hmem => hfd' (List.mem_cons_of_mem _ hmem)
  · exact ⟨pre, p, post, by simp only [ftGetFdNode, hsome], ho⟩

theorem nodup_fd_mid (pre post : List FdNode) (fd : Nat) (p : Ptr) :
    ((pre ++ { fd, memory := p } :: post).map FdNode.fd).Nodup ↔
      fd ∉ (pre ++ post).map FdNode.fd ∧ ((pre ++ post).map FdNode.fd).Nodup := by
  rw [List.map_append, List.map_cons, List.perm_middle.nodup_iff, List.nodup_cons, List.map_append]

theorem nodup_memory_mid (pre post : List FdNode) (fd : Nat) (p : Ptr) :
    ((pre ++ { fd, memory := p } :: post).filterMap FdNode.memory).Nodup ↔
      (p.toList ++ (pre ++ post).filterMap FdNode.memory).Nodup := by
  have hmid : (pre ++ ({ fd, memory := p } : FdNode) :: post).filterMap FdNode.memory =
      pre.filterMap FdNode.memory ++ (p.toList ++ post.filterMap FdNode.memory) := by
    cases p <;> simp
  rw [hmid, List.filterMap_append]
  exact (List.perm_append_comm_assoc _ _ _).nodup_iff

/-- The other nodes: their descriptors and their blocks are others. -/
theorem Owned.others (ho : Owned h (pre ++ { fd, memory := p } :: post) texts) {m : FdNode} (hm : m ∈ pre ++ post) :
    m ∈ pre ++ { fd, memory := p } :: post ∧ m.fd ≠ fd ∧ ∀ a, m.memory = some a → a ∉ p.toList := by
  have hmem : m ∈ pre ++ ({ fd, memory := p } : FdNode) :: post := by
    rw [List.mem_append] at hm ⊢
    exact hm.imp_right (List.mem_cons_of_mem _)
  have hfd := (nodup_fd_mid pre post fd p).mp ho.nodup
  have hblocks := (nodup_memory_mid pre post fd p).mp ho.blocks
  exact ⟨hmem, fun heq => hfd.1 (List.mem_map.mpr ⟨m, hm, heq⟩), fun a ha hp =>
    (List.nodup_append.mp hblocks).2.2 a hp a (List.mem_filterMap.mpr ⟨m, hm, ha⟩) rfl⟩

/-- One node gets another leftover, in its old block, in a new one, or in none. -/
theorem Owned.replace (ho : Owned h (pre ++ { fd, memory := p } :: post) texts) (hs : h'.fault = false)
    (hkeep : KeepsOff p.toList h h') (hm : Memory h' p' t') (hp : p' = p ∨ ∀ a, p' = some a → h.blocks.length ≤ a) :
    Owned h' (pre ++ { fd, memory := p' } :: post) (Function.update texts fd t') := by
  have hmap : (pre ++ { fd, memory := p' } :: post).map FdNode.fd =
      (pre ++ { fd, memory := p } :: post).map FdNode.fd := by
    simp
  refine ⟨hs, hmap ▸ ho.nodup, ?_, fun m hmem => ?_, fun fd' hfd' => ?_⟩
  · have hblocks := (nodup_memory_mid pre post fd p).mp ho.blocks
    rw [nodup_memory_mid]
    rcases hp with rfl | hp
    · exact hblocks
    · refine List.nodup_append.mpr ⟨?_, (List.nodup_append.mp hblocks).2.1, ?_⟩
      · cases p' <;> simp
      · rintro a ha b hb rfl
        obtain ⟨m, hmem, hma⟩ := List.mem_filterMap.mp hb
        have hlive := ho.memory m (ho.others hmem).1
        rw [hma] at hlive
        exact absurd hlive.lt (Nat.not_lt.mpr (hp a (Option.mem_toList.mp ha)))
  · by_cases hself : m = { fd, memory := p' }
    · subst hself
      rwa [Function.update_self]
    · have hother : m ∈ pre ++ post := by
        rw [List.mem_append, List.mem_cons] at hmem
        rw [List.mem_append]
        exact hmem.imp_right fun h => h.resolve_left hself
      obtain ⟨hold, hne, hblock⟩ := ho.others hother
      rw [Function.update_of_ne hne]
      exact (ho.memory m hold).keep hkeep hblock
  · rw [hmap] at hfd'
    have hne : fd' ≠ fd := fun heq => hfd' (by simp [heq])
    rw [Function.update_of_ne hne]
    exact ho.absent fd' hfd'

/-- A node whose leftover is empty can be removed. -/
theorem Owned.removeFdNode (ho : Owned h (pre ++ { fd, memory := p } :: post) texts) (ht : texts fd = []) :
    ∃ h', ftRemoveFdNode fd (pre ++ { fd, memory := p } :: post) h = (pre ++ post, h') ∧
      Owned h' (pre ++ post) texts := by
  have hfd := (nodup_fd_mid pre post fd p).mp ho.nodup
  have hblocks := (List.nodup_append.mp ((nodup_memory_mid pre post fd p).mp ho.blocks)).2.1
  have hpre : ({ fd, memory := p } : FdNode).fd ∉ pre.map FdNode.fd := fun hmem =>
    hfd.1 (by rw [List.map_append]; exact List.mem_append_left _ hmem)
  have hremove := ftRemoveFdNode_mid post h hpre
  have hold := ho.memory { fd, memory := p } (by simp)
  have hfree : (if p.isSome then h.free p else h).fault = false ∧
      KeepsOff p.toList h (if p.isSome then h.free p else h) := by
    cases p with
    | none => exact ⟨ho.sound, fun _ _ _ hat => hat⟩
    | some a =>
      obtain ⟨hnull, -⟩ | hold := hold
      · cases hnull
      · obtain ⟨post, hat⟩ := hold.cells
        exact ⟨hat.free_sound, hat.keepsOff_free⟩
  refine ⟨_, hremove, hfree.1, hfd.2, hblocks, fun m hm => ?_, fun fd' hfd' => ?_⟩
  · obtain ⟨hmem, -, hblock⟩ := ho.others hm
    exact (ho.memory m hmem).keep hfree.2 hblock
  · by_cases heq : fd' = fd
    · rw [heq, ht]
    · exact ho.absent fd' (by simpa [heq] using hfd')

end FdList

/-! ### Calls -/

section Calls
variable {bufferSize fd : Nat} {s : State bufferSize} {texts : Nat → List UInt8}

theorem string_of_terminated {h : Heap UInt8} {p : Ptr} {t : List UInt8} (hp : Terminated 0 h p t) :
    string h p = t := by
  obtain ⟨hbody, post, hat⟩ := hp
  have hkeep : (t ++ 0 :: post.map (·.getD 0)).takeWhile (· ≠ 0) = t := by
    rw [List.takeWhile_append_of_pos fun b hb => by simpa using nul_eq_false hbody b hb]
    simp
  simpa [string, hat.live, Function.comp_def] using hkeep

/-- The line and the new leftover, of what is stored. -/
theorem getLine_getLeftover {h : Heap UInt8} {a : Nat} {t : List UInt8} (hp : Terminated 0 h (some a) t) :
    ∃ h₁ line h₂ p', ftGetLine (some a) h = (h₁, line) ∧ ftGetLeftover (some a) h₁ = (h₂, p') ∧
      Memory h₂ p' (behind newline t) ∧ KeepsOff [a] h h₂ ∧ (∀ b, p' = some b → h.blocks.length ≤ b) ∧
      h₂.fault = false ∧ (line = none ↔ t = []) ∧ (line ≠ none → Terminated 0 h₂ line (firstLine newline t)) := by
  have hbound : ∀ {h₁ : Heap UInt8} {p' : Ptr}, h.blocks.length ≤ h₁.blocks.length →
      (p' = none ∨ p' = some h₁.blocks.length) → ∀ b, p' = some b → h.blocks.length ≤ b := by
    rintro h₁ p' hle (rfl | rfl) b hb
    · cases hb
    · rwa [← Option.some.inj hb]
  by_cases ht : t = []
  · subst ht
    obtain ⟨h₂, p', hleft, hm, hkeep, hp', -, hs⟩ := ftGetLeftover_memory hp
    exact ⟨h, none, h₂, p', ftGetLine_nil hp, hleft, hm, hkeep, hbound (Nat.le_refl _) hp', hs, by simp,
      fun hne => absurd rfl hne⟩
  · obtain ⟨h₁, hline, hstr, hkeep₁, hgrow₁⟩ := ftGetLine_line hp ht
    have hlt : a < h.blocks.length := Memory.lt (Or.inr hp)
    obtain ⟨h₂, p', hleft, hm, hkeep, hp', -, hs⟩ := ftGetLeftover_memory (hp.keep hkeep₁ List.not_mem_nil)
    refine ⟨h₁, _, h₂, p', hline, hleft, hm, (hkeep₁.mono (List.nil_subset _)).trans hkeep,
      hbound (hgrow₁ ▸ Nat.le_succ _) hp', hs, by simp [ht], fun _ => ?_⟩
    exact hstr.keep hkeep fun hmem => Nat.ne_of_gt hlt (List.mem_singleton.mp hmem)

theorem Memory.eq_nil {h : Heap UInt8} {t : List UInt8} (hm : Memory h none t) : t = [] := by
  rcases hm with ⟨-, rfl⟩ | hm
  · rfl
  · obtain ⟨post, hat⟩ := hm.cells
    obtain ⟨a, ha, -⟩ := hat.block
    cases ha

/-- A text that goes up to a newline or to the end of the file starts with the first line of what is left of it. -/
theorem line_of_stop {t : List UInt8} {chunks : List (Chunk bufferSize)} (hstop : newline ∈ t ∨ chunks = []) :
    firstLine newline (t ++ content (some chunks)) = firstLine newline t ∧
      behind newline (t ++ content (some chunks)) = behind newline t ++ content (some chunks) ∧
      (t ++ content (some chunks) = [] ↔ t = []) := by
  rcases hstop with hnl | rfl
  · exact ⟨firstLine_append hnl _, behind_append hnl _, by simp [List.ne_nil_of_mem hnl]⟩
  · have hnil : content (some ([] : List (Chunk bufferSize))) = [] := rfl
    simp only [hnil, List.append_nil, true_and]

/-- What a call does to its own file, and to no other. -/
structure Called (fd : Nat) (s s' : State bufferSize) (texts texts' : Nat → List UInt8) : Prop where
  owned : Owned s'.heap s'.fdList texts'
  others : ∀ fd', fd' ≠ fd → texts' fd' = texts fd' ∧ s'.files fd' = s.files fd'
  closed : s'.files fd = none → texts' fd = []
  left : texts' fd ++ content (s'.files fd) = behind newline (texts fd ++ content (s.files fd))

/-- A call on an open descriptor returns the next line of the file, or null at its end. -/
theorem getNextLine_reads (ho : Owned s.heap s.fdList texts) (hpos : 0 < bufferSize)
    {chunks : List (Chunk bufferSize)} (hfile : s.files fd = some chunks) :
    ∃ s' texts' line, getNextLine fd s = (s', line) ∧ Called fd s s' texts texts' ∧ Returned s'.heap line ∧
      (if line = none then none else some (string s'.heap line)) =
        if texts fd ++ content (s.files fd) = [] then none
        else some (firstLine newline (texts fd ++ content (s.files fd))) := by
  obtain ⟨pre, p, post, hget, hown⟩ := ho.getFdNode fd
  have hm := hown.memory { fd, memory := p } (by simp)
  obtain ⟨s₁, p₁, t₁, chunks₁, hstore, hs₁, hstop, htext⟩ :=
    ftStoreChunks_reads (s := { s with fdList := pre ++ { fd, memory := p } :: post }) hfile hm ho.sound
  have hown₁ : Owned s₁.heap (pre ++ { fd, memory := p₁ } :: post) (Function.update texts fd t₁) :=
    hown.replace hs₁.sound hs₁.keep hs₁.memory
      (hs₁.fresh.imp_right fun ⟨a, ha, hle⟩ b hb => by rwa [← Option.some.inj (ha.symm.trans hb)])
  have hguard : ¬((fd : Int) < 0 ∨ bufferSize ≤ 0) := by omega
  have hrest : ∀ fd', fd' ≠ fd → s₁.files fd' = s.files fd' := by
    intro fd' hne
    rw [hs₁.files, Function.update_of_ne hne]
  have hnext : s₁.files fd = some chunks₁ := by rw [hs₁.files, Function.update_self]
  cases p₁ with
  | none =>
    obtain rfl := hs₁.memory.eq_nil
    obtain rfl := hstop.resolve_left List.not_mem_nil
    obtain ⟨h', hremove, hown₂⟩ := hown₁.removeFdNode (Function.update_self ..)
    refine ⟨{ s₁ with heap := h', fdList := pre ++ post }, _, none, ?_, ⟨hown₂, fun fd' hne =>
      ⟨Function.update_of_ne hne .., hrest fd' hne⟩, fun hnone => absurd (hnext.symm.trans hnone) nofun, ?_⟩,
      ⟨hown₂.sound, fun hne => absurd rfl hne⟩, ?_⟩
    · simp only [getNextLine, hguard, if_false, Int.toNat_natCast, hget, memoryAt_mid, hstore, hs₁.fdList,
        setMemory_mid, if_true, hremove]
    · rw [hfile, ← htext, Function.update_self]
      simp only [hnext]
      rfl
    · rw [hfile, ← htext]
      rfl
  | some a =>
    have hterm : Terminated 0 s₁.heap (some a) t₁ := hs₁.memory.resolve_left nofun
    obtain ⟨h₁, line, h₂, p₂, hline, hleft, hm₂, hkeep₂, hp₂, hs₂, hnull, hstr⟩ := getLine_getLeftover hterm
    have hown₂ := hown₁.replace hs₂ hkeep₂ hm₂ (Or.inr hp₂)
    rw [Function.update_idem] at hown₂
    obtain ⟨hfirst, hbehind, hempty⟩ := line_of_stop hstop
    have hcalled : ∀ {h' : Heap UInt8} {fdList : List FdNode},
        Owned h' fdList (Function.update texts fd (behind newline t₁)) →
        Called fd s { s₁ with heap := h', fdList } texts (Function.update texts fd (behind newline t₁)) := by
      intro h' fdList hown'
      refine ⟨hown', fun fd' hne => ⟨Function.update_of_ne hne .., hrest fd' hne⟩,
        fun hnone => absurd (hnext.symm.trans hnone) nofun, ?_⟩
      rw [hfile, ← htext, hbehind, Function.update_self]
      simp only [hnext]
    cases line with
    | none =>
      obtain rfl := hnull.mp rfl
      obtain ⟨h', hremove, hown₃⟩ := hown₂.removeFdNode (Function.update_self ..)
      refine ⟨{ s₁ with heap := h', fdList := pre ++ post }, _, none, ?_, hcalled hown₃,
        ⟨hown₃.sound, fun hne => absurd rfl hne⟩, ?_⟩
      · simp only [getNextLine, hguard, if_false, Int.toNat_natCast, hget, memoryAt_mid, hstore, hs₁.fdList,
          setMemory_mid, reduceCtorEq, hline, hleft, if_true, hremove]
      · rw [hfile, ← htext, if_pos (hempty.mpr rfl)]
        rfl
    | some b =>
      have ht : t₁ ≠ [] := fun ht => absurd (hnull.mpr ht) nofun
      have hend := hstr (Option.some_ne_none b)
      have hbytes : string h₂ (some b) = firstLine newline t₁ := string_of_terminated hend
      refine ⟨{ s₁ with heap := h₂, fdList := pre ++ { fd, memory := p₂ } :: post }, _, some b, ?_, hcalled hown₂,
        ⟨hown₂.sound, fun _ => by rwa [hbytes]⟩, ?_⟩
      · simp only [getNextLine, hguard, if_false, Int.toNat_natCast, hget, memoryAt_mid, hstore, hs₁.fdList,
          setMemory_mid, reduceCtorEq, hline, hleft]
      · rw [hfile, ← htext, if_neg (mt hempty.mp ht), hfirst, if_neg nofun, hbytes]

/-- A call on a descriptor that is not open returns null, and leaves no node behind. -/
theorem getNextLine_closed (ho : Owned s.heap s.fdList texts) (hpos : 0 < bufferSize) (hfile : s.files fd = none)
    (ht : texts fd = []) : ∃ s', getNextLine fd s = (s', none) ∧ Called fd s s' texts texts := by
  obtain ⟨pre, p, post, hget, hown⟩ := ho.getFdNode fd
  have hm : Memory s.heap p [] := ht ▸ hown.memory { fd, memory := p } (by simp)
  obtain ⟨h₁, hstore, hkeep, hgrow, hs₁⟩ :=
    ftStoreChunks_closed (s := { s with fdList := pre ++ { fd, memory := p } :: post }) hfile hm ho.sound
  have hown₁ : Owned h₁ (pre ++ { fd, memory := none } :: post) (Function.update texts fd []) :=
    hown.replace hs₁ (hkeep.mono (List.nil_subset _)) (Or.inl ⟨rfl, rfl⟩) (Or.inr nofun)
  obtain ⟨h₂, hremove, hown₂⟩ := hown₁.removeFdNode (Function.update_self ..)
  rw [← ht, Function.update_eq_self] at hown₂
  have hguard : ¬((fd : Int) < 0 ∨ bufferSize ≤ 0) := by omega
  refine ⟨{ s with heap := h₂, fdList := pre ++ post }, ?_, hown₂, fun _ _ => ⟨rfl, rfl⟩, fun _ => ht, ?_⟩
  · simp only [getNextLine, hguard, if_false, Int.toNat_natCast, hget, memoryAt_mid, hstore, setMemory_mid, if_true,
      hremove]
  · simp only [ht, hfile]
    rfl

/-- What each descriptor still returns: its leftover, and what is left to read. -/
structure Reads (s : State bufferSize) (rest : Int → List UInt8) (texts : Nat → List UInt8) : Prop where
  owned : Owned s.heap s.fdList texts
  closed : ∀ fd, s.files fd = none → texts fd = []
  unread : bufferSize = 0 → ∀ fd, texts fd = []
  left : ∀ fd : Nat, rest fd = texts fd ++ content (s.files fd)
  negative : ∀ fd < 0, rest fd = []

theorem Reads.called {s' : State bufferSize} {texts' : Nat → List UInt8} {rest : Int → List UInt8}
    (hr : Reads s rest texts) (hc : Called fd s s' texts texts') (hpos : 0 < bufferSize) :
    Reads s' (Function.update rest fd (behind newline (rest fd))) texts' where
  owned := hc.owned
  closed fd' hfile := by
    by_cases hfd : fd' = fd
    · subst hfd
      exact hc.closed hfile
    · rw [(hc.others fd' hfd).1]
      exact hr.closed fd' ((hc.others fd' hfd).2 ▸ hfile)
  unread h0 := absurd h0 (Nat.ne_of_gt hpos)
  left fd' := by
    by_cases hfd : fd' = fd
    · subst hfd
      rw [Function.update_self, hr.left, hc.left]
    · rw [Function.update_of_ne (by omega), hr.left, (hc.others fd' hfd).1,
        (hc.others fd' hfd).2]
  negative fd' hneg := by
    rw [Function.update_of_ne (by omega), hr.negative fd' hneg]

theorem content_of_zero (file : File 0) : content file = [] := by
  rcases file with _ | _ | ⟨chunk, chunks⟩
  · rfl
  · rfl
  · exact absurd (List.length_eq_zero_iff.mp (Nat.le_zero.mp chunk.le)) chunk.ne_nil

/-- A call returns what a reader of the lines of each file reads. -/
theorem getNextLine_reading {rest : Int → List UInt8} (fd : Int) (hr : Reads s rest texts) :
    ∃ s' texts' line, getNextLine fd s = (s', line) ∧
      Reads s' (Function.update rest fd (behind newline (rest fd))) texts' ∧ Returned s'.heap line ∧
      (if line = none then none else some (string s'.heap line)) =
        if rest fd = [] then none else some (firstLine newline (rest fd)) := by
  by_cases hguard : fd < 0 ∨ bufferSize ≤ 0
  · have hnil : rest fd = [] := by
      rcases Int.lt_or_le fd 0 with hneg | hnonneg
      · exact hr.negative fd hneg
      · obtain rfl : bufferSize = 0 := Nat.le_zero.mp (hguard.resolve_left (by omega))
        obtain ⟨n, rfl⟩ := Int.eq_ofNat_of_zero_le hnonneg
        rw [hr.left, hr.unread rfl, content_of_zero, List.append_nil]
    have hsame : Function.update rest fd (behind newline []) = rest := Function.update_eq_self_iff.mpr hnil.symm
    refine ⟨s, texts, none, by simp only [getNextLine, hguard, if_true], ?_,
      ⟨hr.owned.sound, fun hne => absurd rfl hne⟩, by rw [if_pos rfl, if_pos hnil]⟩
    rwa [hnil, hsame]
  · obtain ⟨hnonneg, hpos⟩ := not_or.mp hguard
    obtain ⟨n, rfl⟩ := Int.eq_ofNat_of_zero_le (Int.not_lt.mp hnonneg)
    have hpos : 0 < bufferSize := Nat.not_le.mp hpos
    cases hfile : s.files n with
    | none =>
      obtain ⟨s', hcall, hc⟩ := getNextLine_closed hr.owned hpos hfile (hr.closed n hfile)
      have hnil : rest n = [] := by
        rw [hr.left, hr.closed n hfile, hfile]
        rfl
      exact ⟨s', texts, none, hcall, hr.called hc hpos, ⟨hc.owned.sound, fun hne => absurd rfl hne⟩,
        by rw [if_pos rfl, if_pos hnil]⟩
    | some chunks =>
      obtain ⟨s', texts', line, hcall, hc, hret, hline⟩ := getNextLine_reads hr.owned hpos hfile
      exact ⟨s', texts', line, hcall, hr.called hc hpos, hret, by rw [hline, hr.left]⟩

theorem calls_reading {rest : Int → List UInt8} (fd : Int) (hr : ∃ texts, Reads s rest texts) :
    (∃ texts, Reads ((calls bufferSize).step s fd).1 ((reading newline).step rest fd).1 texts) ∧
      ((calls bufferSize).step s fd).2 = ((reading newline).step rest fd).2 := by
  obtain ⟨texts, hr⟩ := hr
  obtain ⟨s', texts', line, hcall, hr', -, hline⟩ := getNextLine_reading fd hr
  simp only [calls, hcall, hline, reading]
  exact ⟨⟨texts', hr'⟩, trivial⟩

theorem reads_start (files : Nat → File bufferSize) :
    Reads { files } (fun fd => if fd < 0 then [] else content (files fd.toNat)) (fun _ => []) where
  owned := ⟨rfl, List.nodup_nil, List.nodup_nil, nofun, fun _ _ => rfl⟩
  closed _ _ := rfl
  unread _ _ := rfl
  left fd := by rw [List.nil_append, if_neg (by omega), Int.toNat_natCast]
  negative fd hneg := if_pos hneg

theorem calls_simulate (files : Nat → File bufferSize) (fds : List Int) :
    (∃ rest texts, Reads ((calls bufferSize).run { files } fds) rest texts) ∧
      (calls bufferSize).outputs { files } fds =
        (reading newline).outputs (fun fd => if fd < 0 then [] else content (files fd.toNat)) fds := by
  obtain ⟨hreads, houts⟩ := Machine.run_simulates (R := fun s rest => ∃ texts, Reads s rest texts)
    (n := reading newline) (fun _ _ fd hr => calls_reading fd hr) ⟨_, reads_start files⟩ fds
  exact ⟨⟨_, hreads⟩, houts⟩

/-- After any calls, the next one returns null or a terminated string, and reads or writes nothing outside a string. -/
theorem calls_returned (files : Nat → File bufferSize) (fds : List Int) (next : Int) :
    Returned (getNextLine next ((calls bufferSize).run { files } fds)).1.heap
      (getNextLine next ((calls bufferSize).run { files } fds)).2 := by
  obtain ⟨⟨_, _, hreads⟩, -⟩ := calls_simulate files fds
  obtain ⟨s', texts', line, hcall, -, hret, -⟩ := getNextLine_reading next hreads
  rwa [hcall]

end Calls

/-- Whatever the chunks are that `read` returns, and whichever calls come in between on other descriptors, the calls on
    a descriptor return the consecutive lines of its file, each of them terminated, and then null. -/
theorem getNextLine_lines (bufferSize : Nat) (files : Nat → File bufferSize) (fds : List Int) (fd : Nat) :
    (∃ lines, AreLines newline (content (files fd)) lines ∧
      (Machine.keptOutputs (· = (fd : Int)) fds ((calls bufferSize).outputs { files } fds)).flatten =
        (List.range (fds.count (fd : Int))).map (lines[·]?)) ∧
      ∀ before next after, fds = before ++ next :: after →
        Returned (getNextLine next ((calls bufferSize).run { files } before)).1.heap
          (getNextLine next ((calls bufferSize).run { files } before)).2 := by
  refine ⟨⟨_, areLines_lines _, ?_⟩, fun before next _ _ => calls_returned files before next⟩
  rw [(calls_simulate files fds).2, answers_reading, if_neg (by omega), Int.toNat_natCast]

end Minitalk.Libft.GetNextLine
