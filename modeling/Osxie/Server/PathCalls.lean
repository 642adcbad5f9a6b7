import Osxie.Server.KqchanOpen
import Mathlib.Data.List.Basic

/-!
# Calls that return a path

`vchroot_path`, `mldr_path` and `get_executable_path` write a path into a buffer of the client and reply with its length. Each
cuts the path to the buffer in its own way.
-/

namespace Osxie.Server

open List
open ProcessKqchans (esrch)

/-- The bytes written into the buffer, and the reply. -/
structure PathReply where
  written : List UInt8
  code : Int
  fullLength : Nat

/-- `writeMemory` of so many bytes of a C string, and the reply after it; it may fail with an error code. -/
def replyPath (text : List UInt8) (len fullLength : Nat) : Option Nat → PathReply
  | none => ⟨(text ++ [0]).take len, 0, fullLength⟩
  | some errorCode => ⟨[], -errorCode, fullLength⟩

/-- `Call::VchrootPath::processCall`, for a process with a path; the process may be gone. -/
def vchrootPath (process : Option (List UInt8)) (bufferSize : UInt64) (memory : Option Nat) : PathReply :=
  match process with
  | none => ⟨[], -esrch, 0⟩
  | some path =>
    if 0 < bufferSize then
      let tmpstr := path.take (bufferSize - 1).toNat
      replyPath tmpstr (min (tmpstr.length + 1) bufferSize.toNat) path.length memory
    else ⟨[], 0, 0⟩

def mldrPath (defaultMldrPath : List UInt8) (process : Option (List UInt8)) (bufferSize : UInt64) (memory : Option Nat) : PathReply :=
  match process with
  | none => ⟨[], -esrch, 0⟩
  | some vchroot =>
    let tmpstr := defaultMldrPath.take (bufferSize - 1).toNat
    replyPath tmpstr (min (tmpstr.length + 1) bufferSize.toNat) vchroot.length memory

/-- `Call::GetExecutablePath::processCall`; the length is not set when a process is gone. -/
def getExecutablePath (calling : Bool) (target : Option (List UInt8)) (unset : Nat) (bufferSize : UInt64) (memory : Option Nat) :
    PathReply :=
  match calling, target with
  | false, _ => ⟨[], -esrch, unset⟩
  | true, none => ⟨[], esrch, unset⟩
  | true, some path => replyPath path (min (path.length + 1) bufferSize.toNat) path.length memory

/-- A reply is right for a path: at most `n` bytes are written, and with code 0 they are a prefix of the path and the byte 0,
unless `n` is 0, and the length is that of the path. -/
structure PathReply.Right (reply : PathReply) (path : List UInt8) (n : Nat) : Prop where
  bounded : reply.written.length ≤ n
  terminated : reply.code = 0 → 0 < n → ∃ p, p <+: path ∧ reply.written = p ++ [0]
  full : reply.code = 0 → reply.fullLength = path.length

/-- A call is right for a path, whatever `writeMemory` does. -/
def RightCall (call : Option Nat → PathReply) (path : List UInt8) (n : Nat) : Prop := ∀ memory ≠ some 0, (call memory).Right path n

variable {path text : List UInt8} {n fullLength unset : Nat} {bufferSize : UInt64}

/-- What a reply writes is right when the text is cut for the byte 0. -/
theorem replyPath_right (hn : 0 < n → text <+: path ∧ text.length < n) {memory : Option Nat} (hm : memory ≠ some 0) :
    (replyPath text (min (text.length + 1) n) fullLength memory).Right path n ↔ memory = none → fullLength = path.length := by
  cases memory with
  | none =>
    refine ⟨fun h _ => h.full rfl, fun h => ⟨by simp [replyPath], fun _ hpos => ⟨text, (hn hpos).1, ?_⟩, fun _ => h rfl⟩⟩
    exact take_of_length_le (by simp; omega)
  | some e =>
    have he : e ≠ 0 := fun h => hm (by rw [h])
    exact iff_of_true ⟨by simp [replyPath], by simp [replyPath, he], by simp [replyPath, he]⟩ (by simp)

/-- A path cut to the buffer, less one byte. -/
theorem take_fits (h : 0 < bufferSize.toNat) :
    path.take (bufferSize - 1).toNat <+: path ∧ (path.take (bufferSize - 1).toNat).length < bufferSize.toNat := by
  have : (bufferSize - 1).toNat = bufferSize.toNat - 1 := UInt64.toNat_sub_of_le _ _ (by simpa [UInt64.le_iff_toNat_le])
  exact ⟨ take_prefix .., by simp; omega⟩

theorem vchrootPath_right_iff :
    RightCall (vchrootPath (some path) bufferSize) path bufferSize.toNat ↔ 0 < bufferSize ∨ path = [] := by
  by_cases h : 0 < bufferSize
  · refine iff_of_true (fun memory hm => ?_) (.inl h)
    simp only [vchrootPath, if_pos h]
    exact (replyPath_right take_fits hm).2 fun _ => rfl
  · simp only [RightCall, vchrootPath, h, false_or]
    have hz : bufferSize.toNat = 0 := by simpa [UInt64.lt_iff_toNat_lt] using h
    constructor
    · intro hr
      exact eq_nil_of_length_eq_zero ((hr none (by simp)).full rfl).symm
    · rintro rfl memory -
      exact ⟨by simp, by simp [hz], by simp⟩

theorem mldrPath_right_iff {vchroot : List UInt8} :
    RightCall (mldrPath path (some vchroot) bufferSize) path bufferSize.toNat ↔ vchroot.length = path.length := by
  constructor
  · intro hr
    exact (hr none (by simp)).full rfl
  · intro h memory hm
    exact (replyPath_right take_fits hm).2 fun _ => h

theorem getExecutablePath_right_iff (hnul : 0 ∉ path) : RightCall (getExecutablePath true (some path) unset bufferSize) path
    bufferSize.toNat ↔ bufferSize.toNat = 0 ∨ path.length < bufferSize.toNat := by
  constructor
  · intro hr
    by_contra hlen
    obtain ⟨p, -, hp⟩ := (hr none (by simp)).terminated rfl (by omega)
    -- the last byte written is one of the path
    have hw : path.take bufferSize.toNat = p ++ [0] := by
      rw [← hp, ← take_append_of_le_length (by omega), getExecutablePath, replyPath, Nat.min_eq_right (by omega)]
    exact hnul (mem_of_mem_take (by rw [hw]; simp))
  · intro h memory hm
    exact (replyPath_right (fun hpos => ⟨prefix_rfl, by omega⟩) hm).2 fun _ => rfl

/-- The calls are right just when the buffer is not empty or the vchroot path is, the path of mldr is as long as the vchroot
path, and the buffer is empty or holds the executable's path and the byte 0. -/
theorem pathCalls_right_iff (vchroot mldr executable : List UInt8) (unset : Nat) (bufferSize : UInt64) (hnul : 0 ∉ executable) :
    (RightCall (vchrootPath (some vchroot) bufferSize) vchroot bufferSize.toNat ∧
      RightCall (mldrPath mldr (some vchroot) bufferSize) mldr bufferSize.toNat ∧
      RightCall (getExecutablePath true (some executable) unset bufferSize) executable bufferSize.toNat) ↔
    (0 < bufferSize ∨ vchroot = []) ∧ vchroot.length = mldr.length ∧
      (bufferSize.toNat = 0 ∨ executable.length < bufferSize.toNat) := by
  rw [vchrootPath_right_iff, mldrPath_right_iff, getExecutablePath_right_iff hnul]

def bytesOf (path : String) : List UInt8 := path.toList.map fun c => c.toNat.toUInt8

/-- `Config::defaultMldrPath`, without the prefix that it is built with. -/
def defaultMldrPath : List UInt8 := bytesOf "/usr/libexec/osxie/mldr"

/-- A vchroot path of the same length, and an executable, in a buffer that cuts the first two paths. -/
theorem pathCalls_right_cut :
    RightCall (vchrootPath (some (bytesOf "/home/user/osxie-prefix")) 12) (bytesOf "/home/user/osxie-prefix") 12 ∧
      RightCall (mldrPath defaultMldrPath (some (bytesOf "/home/user/osxie-prefix")) 12) defaultMldrPath 12 ∧
      RightCall (getExecutablePath true (some (bytesOf "/bin/bash")) 0 12) (bytesOf "/bin/bash") 12 :=
  (pathCalls_right_iff _ _ _ 0 12 (by decide)).2 (by decide)

/-- The path of mldr is longer than the vchroot path. -/
theorem mldrPath_wrong_length : ¬ RightCall (mldrPath defaultMldrPath (some (bytesOf "/opt/osxie")) 64) defaultMldrPath 64 :=
  fun h => absurd ((h none (by simp)).full rfl) (by decide)

end Osxie.Server
