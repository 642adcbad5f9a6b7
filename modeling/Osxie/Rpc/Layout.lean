import Osxie.Lib.Layout
import Osxie.Rpc.Signature

/-!
# The generated structures under the two ABIs

For each call the generator declares the call body and the reply body, whose members are the parameters, and the call and the
reply, which put a header before the body. A body without parameters is not declared. Clients of either word size share these
structures with the server.

The two ABIs differ in the alignment of an 8-byte integer, and the generator asks for an alignment of 8 on exactly these.
-/

namespace Osxie.Rpc

open List Option

/-- The two C ABIs a client may have been compiled for. -/
inductive Abi where
  | ilp32
  | lp64
deriving DecidableEq

/-- The alignment of an integer of the given size: under the 32-bit ABI at most 4. -/
def Abi.alignOf : Abi → Nat → Nat
  | .ilp32, size => min size 4
  | .lp64, size => size

/-- `sizeof` of a private type. -/
def PrivateType.size : PrivateType → Nat
  | .bool | .int8 | .uint8 => 1
  | .int16 | .uint16 => 2
  | .int32 | .uint32 => 4
  | .int64 | .uint64 => 8

theorem PrivateType.size_pos (t : PrivateType) : 0 < t.size := by
  cases t <;> decide

theorem Abi.alignOf_pos {size : Nat} (h : 0 < size) : ∀ abi : Abi, 0 < abi.alignOf size
  | .ilp32 => Nat.lt_min.2 ⟨h, by decide⟩
  | .lp64 => h

/-- A declared member: its type, its name, and the alignment its attribute asks for (0 without an attribute). -/
structure MemberDecl where
  type : PrivateType
  name : String
  aligned : Nat
deriving DecidableEq

variable (abi : Abi)

/-- A member under an ABI. The attribute can only raise the alignment of the type. -/
def MemberDecl.toMember (d : MemberDecl) : Member :=
  ⟨d.type.size, max (abi.alignOf d.type.size) d.aligned,
    Nat.lt_of_lt_of_le (Abi.alignOf_pos d.type.size_pos abi) (Nat.le_max_left _ _)⟩

/-- The member the generator declares for a parameter. -/
def memberDecl (p : Param) : Except String MemberDecl := do
  let parsedType ← p.privateTypeOf
  pure ⟨parsedType, p.name, alignmentForType parsedType.text⟩

/-- The members of the body the generator declares for a list of parameters. -/
def bodyDecl : List Param → Except String (List MemberDecl)
  | [] => pure []
  | p :: ps => do
    let d ← memberDecl p
    let ds ← bodyDecl ps
    pure (d :: ds)

/-- What the generator declares for a call: the members of its call body and of its reply body. -/
structure Structures where
  call : List MemberDecl
  reply : List MemberDecl
deriving DecidableEq

/-- The structures of a call, or the error the generator stops with. -/
def structures (sig : Signature) : Except String Structures := do
  let call ← bodyDecl sig.callParameters
  let reply ← bodyDecl sig.replyParameters
  pure ⟨call, reply⟩

/-- A signature the generator accepts, with the structures it declares for it. -/
structure Accepted where
  signature : Signature
  decls : Structures
  accepted : structures signature = .ok decls

/-- `dserver_rpc_callhdr`: the call number and the architecture are enumerations, the two identifiers are `pid_t`. -/
def callhdr : List MemberDecl := [⟨.uint32, "number", 0⟩, ⟨.int32, "pid", 0⟩, ⟨.int32, "tid", 0⟩, ⟨.uint32, "architecture", 0⟩]

def replyhdr : List MemberDecl := [⟨.uint32, "number", 0⟩, ⟨.int32, "code", 0⟩]

def declLayout (ds : List MemberDecl) : Layout := layout (ds.map (MemberDecl.toMember abi))

/-- The parts of a call or a reply: its header, and its body when there is one. -/
def parts (hdr body : List MemberDecl) : List (List MemberDecl) :=
  if body.isEmpty then [hdr] else [hdr, body]

/-- The layout of a call or a reply, whose members are its parts. -/
def rpcLayout (hdr body : List MemberDecl) : Layout :=
  layout ((parts hdr body).map (fun ds => (declLayout abi ds).toMember))

/-- The offsets, from the start of a call or a reply, of the members of each of its parts. -/
def rpcMemberOffsets (hdr body : List MemberDecl) : List (List Nat) :=
  zipWith (fun o (part : Layout) => part.offsets.map (o + ·)) (rpcLayout abi hdr body).offsets
    ((parts hdr body).map (declLayout abi))

/-- The layouts of the four structures of a call, with the offsets of all members of the call and of the reply. -/
structure StructureLayouts where
  callBody : Layout
  call : Layout
  callMembers : List (List Nat)
  replyBody : Layout
  reply : Layout
  replyMembers : List (List Nat)
deriving DecidableEq

def Structures.layouts (s : Structures) : StructureLayouts where
  callBody := declLayout abi s.call
  call := rpcLayout abi callhdr s.call
  callMembers := rpcMemberOffsets abi callhdr s.call
  replyBody := declLayout abi s.reply
  reply := rpcLayout abi replyhdr s.reply
  replyMembers := rpcMemberOffsets abi replyhdr s.reply

/-! ## Equal layouts -/

/-- A member whose placement does not depend on the ABI. -/
def MemberDecl.Portable (d : MemberDecl) : Prop := d.toMember .ilp32 = d.toMember .lp64

variable {d : MemberDecl} {ps : List Param} {ds : List MemberDecl}

/-- What makes a member portable: it has at most 4 bytes, or its attribute asks for its size. -/
theorem MemberDecl.portable_of (h : d.type.size ≤ 4 ∨ d.type.size ≤ d.aligned) : d.Portable := by
  simp only [Portable, toMember, Abi.alignOf, Member.mk.injEq, true_and]
  omega

theorem callhdr_portable : ∀ d ∈ callhdr, d.Portable := by
  intro d hd
  apply MemberDecl.portable_of
  revert d
  decide

theorem replyhdr_portable : ∀ d ∈ replyhdr, d.Portable := by
  intro d hd
  apply MemberDecl.portable_of
  revert d
  decide

/-- The generator asks for an alignment of 8 on exactly the types of 8 bytes. -/
theorem size_le_alignmentForType (t : PrivateType) : t.size ≤ 4 ∨ t.size ≤ alignmentForType t.text := by
  cases t <;> decide

/-- The alignment the generator asks for makes every member it declares portable. -/
theorem memberDecl_portable {p : Param} (h : memberDecl p = .ok d) : d.Portable := by
  simp only [memberDecl, bind, Except.bind, pure, Except.pure] at h
  split at h <;> cases h
  rename_i t _
  exact MemberDecl.portable_of (size_le_alignmentForType t)

/-- Every member of a declared body is portable. -/
theorem bodyDecl_portable (h : bodyDecl ps = .ok ds) : ∀ d ∈ ds, d.Portable := by
  induction ps generalizing ds with
  | nil =>
    cases h
    simp
  | cons p ps ih =>
    simp only [bodyDecl, bind, Except.bind, pure, Except.pure] at h
    split at h
    · cases h
    rename_i hd
    split at h <;> cases h
    rename_i hds
    exact forall_mem_cons.2 ⟨memberDecl_portable hd, ih hds⟩

/-- A structure of portable members has the same layout under both ABIs. -/
theorem declLayout_eq (h : ∀ d ∈ ds, d.Portable) : declLayout .ilp32 ds = declLayout .lp64 ds := by
  unfold declLayout
  rw [map_congr_left h]

/-- A structure of parts of portable members has the same layout under both ABIs. -/
theorem rpcLayout_eq {hdr body : List MemberDecl} (hh : ∀ d ∈ hdr, d.Portable) (hb : ∀ d ∈ body, d.Portable) :
    rpcLayout .ilp32 hdr body = rpcLayout .lp64 hdr body ∧
      rpcMemberOffsets .ilp32 hdr body = rpcMemberOffsets .lp64 hdr body := by
  have hpar : ∀ ds ∈ parts hdr body, declLayout .ilp32 ds = declLayout .lp64 ds := by
    intro ds hds
    unfold parts at hds
    split at hds
    · rw [mem_singleton.1 hds]
      exact declLayout_eq hh
    · rcases mem_pair.1 hds with rfl | rfl
      · exact declLayout_eq hh
      · exact declLayout_eq hb
  have hlay : rpcLayout .ilp32 hdr body = rpcLayout .lp64 hdr body := by
    unfold rpcLayout
    rw [map_congr_left (fun ds hds => congrArg Layout.toMember (hpar ds hds))]
  refine ⟨hlay, ?_⟩
  unfold rpcMemberOffsets
  rw [hlay, map_congr_left hpar]

/-- The generator accepts every body whose parameters have allowed types. -/
theorem bodyDecl_isOk (h : ∀ p ∈ ps, p.Allowed) : ∃ ds, bodyDecl ps = .ok ds := by
  induction ps with
  | nil => exact ⟨[], rfl⟩
  | cons p ps ih =>
    obtain ⟨hp, hps⟩ := forall_mem_cons.1 h
    obtain ⟨t, ht⟩ := (privateTypeOf_isOk_iff p).2 hp
    obtain ⟨ds, hds⟩ := ih hps
    exact ⟨⟨t, p.name, alignmentForType t.text⟩ :: ds, by simp [bodyDecl, memberDecl, ht, hds, bind, Except.bind, pure,
      Except.pure]⟩

/-- For every signature of allowed types and descriptors, the generator declares the four structures, and each has the same
member offsets, the same size and the same alignment under both ABIs. -/
theorem structures_layout_eq (sig : Signature) (hcall : ∀ p ∈ sig.callParameters, p.Allowed)
    (hreply : ∀ p ∈ sig.replyParameters, p.Allowed) :
    ∃ s, structures sig = .ok s ∧ s.layouts .ilp32 = s.layouts .lp64 := by
  obtain ⟨call, hc⟩ := bodyDecl_isOk hcall
  obtain ⟨reply, hr⟩ := bodyDecl_isOk hreply
  have pc := bodyDecl_portable hc
  have pr := bodyDecl_portable hr
  refine ⟨⟨call, reply⟩, by simp [structures, hc, hr, bind, Except.bind, pure, Except.pure], ?_⟩
  obtain ⟨hcl, hcm⟩ := rpcLayout_eq callhdr_portable pc
  obtain ⟨hrl, hrm⟩ := rpcLayout_eq replyhdr_portable pr
  simp only [Structures.layouts, declLayout_eq pc, declLayout_eq pr, hcl, hcm, hrl, hrm]

/-- A call with a flag, a 64-bit address passed by pointer and a descriptor, returning a 16-bit and a 64-bit value. -/
def sampleSignature : Signature where
  name := "sample"
  callParameters := [⟨"flag", "bool", none⟩, ⟨"address", "void*", some "uint64_t"⟩, ⟨"pipe", "@fd", none⟩]
  replyParameters := [⟨"code", "int16_t", none⟩, ⟨"value", "uint64_t", none⟩]

/-- Both ABIs give its structures one layout. -/
theorem sampleSignature_layout_eq :
    ∃ s, structures sampleSignature = .ok s ∧ s.layouts .ilp32 = s.layouts .lp64 :=
  structures_layout_eq sampleSignature (by decide) (by decide)

-- without the attribute an 8-byte member would move
example : declLayout .ilp32 [⟨.int32, "a", 0⟩, ⟨.int64, "b", 0⟩] ≠ declLayout .lp64 [⟨.int32, "a", 0⟩, ⟨.int64, "b", 0⟩] := by
  decide

/-- The members of a declared structure are aligned under the ABI, lie inside it and do not overlap. -/
theorem declLayout_wellFormed (abi : Abi) (ds : List MemberDecl) :
    let placed := (declLayout abi ds).offsets.zip (ds.map (MemberDecl.toMember abi))
    (∀ o m, (o, m) ∈ placed → m.align ∣ o ∧ o + m.size ≤ (declLayout abi ds).size) ∧
      placed.Pairwise (fun a b => a.1 + a.2.size ≤ b.1) :=
  ⟨fun _ _ h => layout_placed h, layout_pairwise _⟩

end Osxie.Rpc
