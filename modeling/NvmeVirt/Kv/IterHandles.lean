import NvmeVirt.Kv.KvFtl
import NvmeVirt.Lib.Interleaving

/-!
# The handles of the iterators

An iterator is opened in a free entry of the array `iter_handle`, whose index is
its handle, and closed by that index.  The array has 17 entries, of which
`kv_init_namespace` clears 16; entries 1 to 16 are given out.  When none of them
is free, `kv_iter_open` returns 1 and leaves the status, which is success, as it
is.
-/

namespace NvmeVirt.Kv

open NvmeVirt.Interleaving

/-- The fields of `struct kv_iter_context` that are read; `buf` is filled anew
by each read. -/
structure KvIterContext where
  keyBits : UInt32
  bitmask : UInt32
  currentPos : ℕ
  deriving DecidableEq

/-- An entry of `iter_handle`: a null pointer, what `kmalloc` left there, or an
open iterator. -/
inductive IterHandle where
  | null
  | garbage
  | context (ctx : KvIterContext)
  deriving DecidableEq

def IterHandle.isOpen : IterHandle → Bool
  | .context _ => true
  | _ => false

/-- Entries of `iter_handle`. -/
def iterHandles : ℕ := 17

/-- The array after `kv_init_namespace`, with what its last entry held
before. -/
def initIterHandles (last : IterHandle) (i : ℕ) : IterHandle :=
  if i < 16 then .null else last

/-- The value returned by an iterator request, and the array after it. -/
structure IterResult where
  status : ℕ
  result : ℕ
  handles : ℕ → IterHandle

/-- `kv_iter_open`, with the status that it finds. -/
def kvIterOpen (handles : ℕ → IterHandle) (iterVal iterBitmask : UInt32)
    (status : ℕ) : IterResult :=
  match (List.range' 1 16).find? fun iter => handles iter = .null with
  | none => ⟨status, 1, handles⟩
  | some iter => ⟨0, iter, Function.update handles iter
      (.context ⟨iterVal, iterBitmask, 0⟩)⟩

/-- `kv_iter_close`; there is a fault if the handle is no index of the array, or
if garbage is freed. -/
def kvIterClose (handles : ℕ → IterHandle) (iter : ℕ) : Option IterResult :=
  if iter < iterHandles then
    match handles iter with
    | .garbage => none
    | .null => some ⟨0, 0, handles⟩
    | .context _ => some ⟨0, 0, Function.update handles iter .null⟩
  else none

inductive IterRequest where
  | openIter (iterVal iterBitmask : UInt32)
  | closeIter (iter : UInt8)
  deriving DecidableEq

/-- `NVME_SC_SUCCESS`, the status of a request before it is carried out. -/
def nvmeScSuccess : ℕ := 0

/-- The result of an iterator request, if it has one. -/
def kvIterRequest (handles : ℕ → IterHandle) : IterRequest → Option IterResult
  | .openIter iterVal iterBitmask =>
      some (kvIterOpen handles iterVal iterBitmask nvmeScSuccess)
  | .closeIter iter => kvIterClose handles iter.toNat

/-- The array after a request. -/
def iterStep (request : IterRequest) (handles : ℕ → IterHandle) :
    Option (ℕ → IterHandle) :=
  (kvIterRequest handles request).map IterResult.handles

/-! ## Handles that are not shared -/

/-- An open either succeeds with one of the handles 1 to 16 that no open
iterator holds, or fails; it fails if all of them are held. -/
def OpenUnshared (handles : ℕ → IterHandle) (opened : IterResult) : Prop :=
  (opened.status = 0 → 1 ≤ opened.result ∧ opened.result ≤ 16 ∧
      (handles opened.result).isOpen = false) ∧
    ((∀ iter ∈ List.range' 1 16, (handles iter).isOpen = true) →
      opened.status ≠ 0)

/-- What is asked of a request: it has a result, and an open shares no handle.
-/
def Unshared (request : IterRequest) (handles : ℕ → IterHandle) : Prop :=
  ∃ result, kvIterRequest handles request = some result ∧
    match request with
    | .openIter _ _ => OpenUnshared handles result
    | .closeIter _ => True

/-- An open finds an entry among 1 to 16 that is a null pointer; a close names
an entry of the array that was ever set. -/
def RequestOk (request : IterRequest) (handles : ℕ → IterHandle) : Prop :=
  match request with
  | .openIter _ _ => ∃ iter ∈ List.range' 1 16, handles iter = .null
  | .closeIter iter =>
      iter.toNat < iterHandles ∧ handles iter.toNat ≠ .garbage

instance (request : IterRequest) (handles : ℕ → IterHandle) :
    Decidable (RequestOk request handles) :=
  match request with
  | .openIter _ _ => inferInstanceAs (Decidable (∃ _ ∈ _, _))
  | .closeIter _ => inferInstanceAs (Decidable (_ ∧ _))

section Requests

variable {handles : ℕ → IterHandle} {iterVal iterBitmask : UInt32}
  {status : ℕ}

/-- The two ends of `kv_iter_open`. -/
theorem kvIterOpen_cases (handles : ℕ → IterHandle)
    (iterVal iterBitmask : UInt32) (status : ℕ) :
    ((∀ iter ∈ List.range' 1 16, handles iter ≠ .null) ∧
        kvIterOpen handles iterVal iterBitmask status =
          ⟨status, 1, handles⟩) ∨
      ∃ iter ∈ List.range' 1 16, handles iter = .null ∧
        kvIterOpen handles iterVal iterBitmask status =
          ⟨0, iter, Function.update handles iter
            (.context ⟨iterVal, iterBitmask, 0⟩)⟩ := by
  rw [kvIterOpen]
  cases hfind : (List.range' 1 16).find? fun iter => handles iter = .null with
  | none =>
      refine .inl ⟨fun iter hmem hnull => ?_, rfl⟩
      exact List.find?_eq_none.mp hfind iter hmem (by simp [hnull])
  | some iter =>
      have hnull := List.find?_some hfind
      exact .inr ⟨iter, List.mem_of_find?_eq_some hfind,
        of_decide_eq_true hnull, rfl⟩

/-- Garbage can only be in the last entry. -/
def OnlyLastGarbage (handles : ℕ → IterHandle) : Prop :=
  ∀ iter < 16, handles iter ≠ .garbage

theorem onlyLastGarbage_update (hlast : OnlyLastGarbage handles)
    (iter : ℕ) {handle : IterHandle} (hhandle : handle ≠ .garbage) :
    OnlyLastGarbage (Function.update handles iter handle) := by
  intro other hother
  rw [Function.update_apply]
  split
  · exact hhandle
  · exact hlast other hother

theorem onlyLastGarbage_step (hlast : OnlyLastGarbage handles)
    (request : IterRequest) :
    OnlyLastGarbage (turn iterStep handles request) := by
  cases request with
  | openIter iterVal iterBitmask =>
      show OnlyLastGarbage
        (kvIterOpen handles iterVal iterBitmask nvmeScSuccess).handles
      rcases kvIterOpen_cases handles iterVal iterBitmask nvmeScSuccess with
        ⟨-, heq⟩ | ⟨iter, -, -, heq⟩
      · rw [heq]
        exact hlast
      · rw [heq]
        exact onlyLastGarbage_update hlast iter (by simp)
  | closeIter iter =>
      rw [turn, iterStep, kvIterRequest, kvIterClose]
      split
      · split
        · exact hlast
        · exact hlast
        · exact onlyLastGarbage_update hlast iter.toNat (by simp)
      · exact hlast

theorem openUnshared_iff (hlast : OnlyLastGarbage handles) :
    OpenUnshared handles
        (kvIterOpen handles iterVal iterBitmask nvmeScSuccess) ↔
      ∃ iter ∈ List.range' 1 16, handles iter = .null := by
  rcases kvIterOpen_cases handles iterVal iterBitmask nvmeScSuccess with
    ⟨hnone, heq⟩ | ⟨iter, hmem, hnull, heq⟩
  · -- handle 1 is returned although it is in use
    rw [heq]
    constructor
    · rintro ⟨hunshared, -⟩
      obtain ⟨-, -, hclosed⟩ := hunshared rfl
      have hone : handles 1 ≠ .null := hnone 1 (by decide)
      have hset : handles 1 ≠ .garbage := hlast 1 (by decide)
      cases hhandle : handles 1 with
      | null => exact absurd hhandle hone
      | garbage => exact absurd hhandle hset
      | context ctx =>
          rw [hhandle] at hclosed
          cases hclosed
    · rintro ⟨iter, hmem, hnull⟩
      exact absurd hnull (hnone iter hmem)
  · rw [heq]
    refine iff_of_true ⟨fun _ => ?_, fun hall => ?_⟩ ⟨iter, hmem, hnull⟩
    · have hrange := List.mem_range'_1.mp hmem
      refine ⟨hrange.1, Nat.le_of_lt_succ hrange.2, ?_⟩
      rw [hnull]
      rfl
    · have hopen := hall iter hmem
      rw [hnull] at hopen
      cases hopen

theorem unshared_iff (hlast : OnlyLastGarbage handles)
    (request : IterRequest) :
    Unshared request handles ↔ RequestOk request handles := by
  cases request with
  | openIter iterVal iterBitmask =>
      calc Unshared (.openIter iterVal iterBitmask) handles
          ↔ OpenUnshared handles
              (kvIterOpen handles iterVal iterBitmask nvmeScSuccess) := by
            simp [Unshared, kvIterRequest]
        _ ↔ RequestOk (.openIter iterVal iterBitmask) handles :=
            openUnshared_iff hlast
  | closeIter iter =>
      simp only [Unshared, kvIterRequest, kvIterClose, RequestOk, and_true]
      by_cases hlt : iter.toNat < iterHandles
      · cases hhandle : handles iter.toNat <;> simp [hlt]
      · simp [hlt]

end Requests

/-- For every sequence of iterator requests, whatever the last entry held: no
handle is shared exactly if every open finds a null entry among 1 to 16, and
every close names an entry of the array that is not garbage. -/
theorem iter_handles_unshared_iff (last : IterHandle)
    (requests : List IterRequest) :
    Meets iterStep Unshared requests (initIterHandles last) ↔
      Meets iterStep RequestOk requests (initIterHandles last) := by
  have hinit : OnlyLastGarbage (initIterHandles last) := by
    intro iter hiter
    rw [initIterHandles, if_pos hiter]
    simp
  exact meets_iff_meets iterStep
    (fun request handles hlast _ => unshared_iff hlast request)
    (fun request handles hlast _ _ => onlyLastGarbage_step hlast request)
    hinit (meets_true iterStep requests _)

/-- Sixteen iterators, one of which is closed before another is opened. -/
example : Meets iterStep RequestOk
    (List.replicate 16 (.openIter 0 0) ++ [.closeIter 3, .openIter 0x61 0xff])
    (initIterHandles .null) := by
  decide

/-- The seventeenth open succeeds with handle 1, which is in use. -/
theorem exhausted_open_shares_handle :
    let requests : List IterRequest := List.replicate 16 (.openIter 0 0)
    let handles := run iterStep requests (initIterHandles .null)
    let opened := kvIterOpen handles 0 0 nvmeScSuccess
    (∀ iter ∈ List.range' 1 16, (handles iter).isOpen = true) ∧
      opened.status = 0 ∧ opened.result = 1 ∧
      ¬ Unshared (.openIter 0 0) handles := by
  intro requests handles opened
  have hall : ∀ iter ∈ List.range' 1 16, (handles iter).isOpen = true := by
    decide
  refine ⟨hall, by decide, by decide, ?_⟩
  rintro ⟨result, hresult, hunshared⟩
  cases hresult
  exact hunshared.2 hall (by decide)

end NvmeVirt.Kv
