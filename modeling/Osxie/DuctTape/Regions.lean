import Mathlib.Algebra.Order.Ring.Int
import Mathlib.Data.List.Find

/-!
# Queries of memory regions

`mach_vm_region` and `mach_vm_region_recurse` answer from `/proc/<pid>/maps`: `Process::memoryRegionInfo` is the line that
contains an address, `Process::getNextRegion` the start of the first line above it, or 0. The lines are taken as they were read,
for a process that is alive. Addresses are natural numbers: no sum goes beyond the end of a region.
-/

namespace Osxie.DuctTape

open List Option Nat

inductive KernReturn where
  | success
  | noSpace
  | failure
  | invalidArgument
deriving DecidableEq

structure Protection where
  read : Bool
  write : Bool
  execute : Bool
deriving DecidableEq

/-- A line of `/proc/<pid>/maps`. -/
structure Region where
  startAddress : Nat
  endAddress : Nat
  mapOffset : Nat
  protection : Protection
  shared : Bool

/-- An address space: disjoint regions of whole pages, in ascending order. -/
structure AddressSpace where
  pageSize : Nat
  maps : List Region
  aligned : ∀ r ∈ maps, pageSize ∣ r.startAddress ∧ pageSize ∣ r.endAddress
  nonempty : ∀ r ∈ maps, r.startAddress < r.endAddress
  disjoint : maps.Pairwise fun r r' => r.endAddress ≤ r'.startAddress

structure MemoryRegionInfo where
  startAddress : Nat
  pageCount : Nat
  mapOffset : Nat
  protection : Protection
  shared : Bool

/-- What is filled of an info structure; the other fields are always the same. -/
structure RegionInfo where
  protection : Protection
  offset : Nat
  shared : Bool
deriving DecidableEq

/-- `*address`, `*size`, `*count` and the info structure after a call, if the call has filled it. -/
structure RegionOut where
  address : Nat
  size : Nat
  count : Nat
  info : Option RegionInfo := none
deriving DecidableEq

/-- The known flavors: `VM_REGION_BASIC_INFO_64`, `VM_REGION_BASIC_INFO` and `VM_REGION_TOP_INFO`. -/
inductive Flavor where
  | basic (is64 : Bool)
  | top

/-- `VM_REGION_BASIC_INFO_COUNT_64`, `VM_REGION_BASIC_INFO_COUNT`, `VM_REGION_TOP_INFO_COUNT`. -/
def Flavor.infoCount : Flavor → Nat
  | .basic is64 => if is64 then 9 else 8
  | .top => 5

def submapShortInfoCount64 : Nat := 12

/-- What a flavor reports of a region. An executable one is reported as readable and executable, whatever it is: a hack for
LLDB. The offset of the old structure has 32 bits, and `vm_region_top_info` is filled with zeros. -/
def Flavor.fill (r : MemoryRegionInfo) : Flavor → RegionInfo
  | .basic is64 =>
    { protection := if r.protection.execute then ⟨true, false, true⟩ else r.protection
      offset := if is64 then r.mapOffset else r.mapOffset % 2 ^ 32
      shared := r.shared }
  | .top => ⟨⟨false, false, false⟩, 0, false⟩

def MemoryRegionInfo.submap (r : MemoryRegionInfo) : RegionInfo := ⟨r.protection, r.mapOffset, r.shared⟩

namespace AddressSpace

variable (m : AddressSpace)

def info (r : Region) : MemoryRegionInfo where
  startAddress := r.startAddress
  pageCount := (r.endAddress - r.startAddress) / m.pageSize
  mapOffset := r.mapOffset
  protection := r.protection
  shared := r.shared

variable (address : Nat)

def memoryRegionInfo : Option MemoryRegionInfo :=
  (m.maps.find? fun r => !(r.endAddress ≤ address || address < r.startAddress)).map m.info

def getNextRegion : Nat := ((m.maps.find? fun r => address < r.startAddress).map Region.startAddress).getD 0

/-- The region that a query is about, as every query looks for it. -/
def findRegion : Except KernReturn MemoryRegionInfo :=
  match m.memoryRegionInfo address with
  | some info => .ok info
  | none =>
    if m.getNextRegion address = 0 then .error .noSpace
    else match m.memoryRegionInfo (m.getNextRegion address) with
      | some info => .ok info
      | none => .error .failure

def returned (r : MemoryRegionInfo) (count : Nat) (info : Option RegionInfo) : RegionOut :=
  ⟨r.startAddress, r.pageCount * m.pageSize, count, info⟩

/-- `mach_vm_region`; none is a flavor that is not known. -/
def machVmRegion (flavor : Option Flavor) (address size count : Nat) : KernReturn × RegionOut :=
  match flavor with
  | some (.basic is64) =>
    let needed := (Flavor.basic is64).infoCount
    match m.findRegion address with
    | .error kr => (kr, ⟨address, size, count, none⟩)
    | .ok r =>
      if count < needed then (.invalidArgument, m.returned r count none)
      else (.success, m.returned r needed ((Flavor.basic is64).fill r))
  | some .top =>
    let needed := Flavor.top.infoCount
    if count < needed then (.invalidArgument, ⟨address, size, count, none⟩)
    else match m.findRegion address with
      | .error kr => (kr, ⟨address, size, needed, none⟩)
      | .ok r => (.success, m.returned r needed (Flavor.top.fill r))
  | none => (.invalidArgument, ⟨address, size, count, none⟩)

/-- `mach_vm_region_recurse`. For another count `kr` is set to `KERN_INVALID_ARGUMENT`, and then to `KERN_SUCCESS`. -/
def machVmRegionRecurse (address size count : Nat) : KernReturn × RegionOut :=
  match m.findRegion address with
  | .error kr => (kr, ⟨address, size, count, none⟩)
  | .ok r => (.success, m.returned r count (if count = submapShortInfoCount64 then some r.submap else none))

/-! ## Completeness -/

/-- What a query with a basic flavor returns for a region. -/
def reported (is64 : Bool) (r : Region) : RegionOut where
  address := r.startAddress
  size := r.endAddress - r.startAddress
  count := (Flavor.basic is64).infoCount
  info := (Flavor.basic is64).fill (m.info r)

/-- Queries from an address on, each with the address after the region before: what they return, and what ends them. -/
def enumerate (is64 : Bool) (count : Nat) : Nat → Nat → List RegionOut × KernReturn
  | 0, _ => ([], .success)
  | fuel + 1, address =>
    match m.machVmRegion (some (.basic is64)) address 0 count with
    | (.success, out) =>
      let (outs, kr) := enumerate is64 count fuel (out.address + out.size)
      (out :: outs, kr)
    | (kr, _) => ([], kr)

def first : Option Region := m.maps.find? fun r => address < r.endAddress

def Outside : Prop := ∀ r ∈ m.maps, r.endAddress ≤ address ∨ address < r.startAddress

variable {m} {r : Region} {below above : List Region} {address size count : Nat} {is64 : Bool}

theorem first_eq_some (hmp : m.maps = below ++ r :: above) (hbel : ∀ x ∈ below, x.endAddress ≤ address)
    (hr : address < r.endAddress) : m.first address = some r :=
  find?_eq_some_iff_append.2 ⟨by simpa using hr, below, above, hmp, by simpa using hbel⟩

/-- What is before a region ends below it, and what is after it starts above it. -/
theorem split (hmp : m.maps = below ++ r :: above) :
    (∀ x ∈ below, x.endAddress ≤ r.startAddress) ∧ ∀ x ∈ above, r.endAddress ≤ x.startAddress := by
  have hd := m.disjoint
  rw [hmp, pairwise_append, pairwise_cons] at hd
  exact ⟨fun x hx => hd.2.2 x hx r (by simp), hd.2.1.1⟩

/-- A region is the first one that ends above an address in it, and the line that contains that address. -/
theorem contains_spec (hr : r ∈ m.maps) (hsta : r.startAddress ≤ address) (hend : address < r.endAddress) :
    m.first address = some r ∧ m.memoryRegionInfo address = some (m.info r) := by
  obtain ⟨below, above, hmp⟩ := append_of_mem hr
  have hbel : ∀ x ∈ below, x.endAddress ≤ address := fun x hx => ((split hmp).1 x hx).trans hsta
  rw [memoryRegionInfo, map_eq_some_iff]
  refine ⟨first_eq_some hmp hbel hend, r, find?_eq_some_iff_append.2 ⟨?_, below, above, hmp, fun x hx => ?_⟩, rfl⟩
  · simp
    omega
  · simp [hbel x hx]

theorem memoryRegionInfo_none (h : m.Outside address) : m.memoryRegionInfo address = none := by
  rw [memoryRegionInfo, map_eq_none_iff, find?_eq_none]
  intro r hr
  have hr := h r hr
  simp
  omega

/-- Outside every region, to end above the address is to start above it. -/
theorem find?_eq_first (h : m.Outside address) : (m.maps.find? fun r => address < r.startAddress) = m.first address := by
  refine find?_congr fun r hr => ?_
  have hne := m.nonempty r hr
  have hout := h r hr
  simp
  omega

/-- A query finds the first region that ends above its address. -/
theorem findRegion_eq (address : Nat) :
    m.findRegion address = (m.first address).elim (.error .noSpace) fun r => .ok (m.info r) := by
  by_cases hin : ∃ r ∈ m.maps, r.startAddress ≤ address ∧ address < r.endAddress
  · obtain ⟨r, hr, hsta, hend⟩ := hin
    obtain ⟨hfirst, hnf⟩ := contains_spec hr hsta hend
    simp [findRegion, hfirst, hnf]
  · have hout : m.Outside address := by
      intro r hr
      have hr := not_and.1 (not_and.1 (not_exists.1 hin r) hr)
      omega
    have hnx := find?_eq_first hout
    simp only [findRegion, memoryRegionInfo_none hout, getNextRegion, hnx]
    cases hfirst : m.first address with
    | none => rfl
    | some r =>
      -- the next line is this region, and contains its own start
      have hr := mem_of_find?_eq_some hfirst
      have hnf := (contains_spec hr le_rfl (m.nonempty r hr)).2
      have hpos : address < r.startAddress := by simpa using find?_some (hnx.trans hfirst)
      simp [hnf, Nat.ne_zero_of_lt hpos]

theorem machVmRegion_eq (hcount : (Flavor.basic is64).infoCount ≤ count) (address size : Nat) :
    m.machVmRegion (some (.basic is64)) address size count =
      (m.first address).elim (.noSpace, ⟨address, size, count, none⟩) fun r => (.success, m.reported is64 r) := by
  simp only [machVmRegion, findRegion_eq]
  cases hfirst : m.first address with
  | none => rfl
  | some r =>
    obtain ⟨hsta, hend⟩ := m.aligned r (mem_of_find?_eq_some hfirst)
    have hsz : (r.endAddress - r.startAddress) / m.pageSize * m.pageSize = r.endAddress - r.startAddress :=
      Nat.div_mul_cancel (Nat.dvd_sub hend hsta)
    simp [returned, reported, info, hsz, not_lt.2 hcount]

/-- The queries from the end of some regions on return the others. -/
theorem enumerate_eq (hcount : (Flavor.basic is64).infoCount ≤ count) (hmp : m.maps = below ++ above)
    (hbel : ∀ x ∈ below, x.endAddress ≤ address) (hbv : ∀ x ∈ above, address ≤ x.startAddress) {fuel : Nat}
    (hfl : above.length < fuel) : m.enumerate is64 count fuel address = (above.map (m.reported is64), .noSpace) := by
  obtain _ | fuel := fuel
  · cases hfl
  induction above generalizing below address fuel with
  | nil =>
    have hfirst : m.first address = none := by simpa [first, hmp] using hbel
    simp [enumerate, machVmRegion_eq hcount, hfirst]
  | cons r above ih =>
    have hne := m.nonempty r (by simp [hmp])
    have hfirst := first_eq_some hmp hbel ((hbv r (by simp)).trans_lt hne)
    have hends : ∀ x ∈ below ++ [r], x.endAddress ≤ r.endAddress := by
      intro x hx
      rw [mem_append, mem_singleton] at hx
      obtain hx | rfl := hx
      · exact ((split hmp).1 x hx).trans hne.le
      · exact le_rfl
    have hnx : (m.reported is64 r).address + (m.reported is64 r).size = r.endAddress := by
      simp [reported]
      omega
    obtain _ | fuel := fuel
    · cases lt_of_succ_lt_succ hfl
    · have hrs := ih (by simp [hmp]) hends (split hmp).2 fuel (lt_of_succ_lt_succ hfl)
      rw [enumerate, machVmRegion_eq hcount, hfirst]
      simp [hnx, hrs]

/-- The queries from address 0 on return each region once, in order, and then `KERN_NO_SPACE`. A query returns the region that
contains its address, or else the first one above it. -/
theorem enumerate_complete (m : AddressSpace) (hcount : (Flavor.basic is64).infoCount ≤ count) :
    (∀ fuel, m.maps.length < fuel → m.enumerate is64 count fuel 0 = (m.maps.map (m.reported is64), .noSpace)) ∧
    ∀ address size,
      (∀ r ∈ m.maps, r.startAddress ≤ address → address < r.endAddress →
        m.machVmRegion (some (.basic is64)) address size count = (.success, m.reported is64 r)) ∧
      (m.Outside address → m.machVmRegion (some (.basic is64)) address size count =
          (m.maps.find? fun r => address < r.startAddress).elim (.noSpace, ⟨address, size, count, none⟩)
            fun r => (.success, m.reported is64 r)) := by
  refine ⟨fun fuel hfl => ?_, fun address size => ⟨fun r hr hsta hend => ?_, fun hout => ?_⟩⟩
  · exact enumerate_eq hcount (nil_append m.maps).symm (by simp) (by simp) hfl
  · rw [machVmRegion_eq hcount, (contains_spec hr hsta hend).1]
    rfl
  · rw [machVmRegion_eq hcount, find?_eq_first hout]

/-- Two regions with a gap between them, the first one with all rights. -/
def two : AddressSpace where
  pageSize := 4096
  maps := [⟨4096, 8192, 0, ⟨true, true, true⟩, false⟩, ⟨12288, 16384, 0, ⟨true, true, false⟩, false⟩]
  aligned := by decide
  nonempty := by decide
  disjoint := by decide

/-- Three queries find both regions. -/
theorem enumerate_complete_two : ∃ outs, two.enumerate true 9 3 0 = (outs, .noSpace) ∧ outs.length = 2 :=
  ⟨_, (enumerate_complete two (by decide)).1 3 (by decide), rfl⟩

/-- A region with all rights is reported as one that cannot be written. -/
theorem protection_of_executable : two.maps.head?.map Region.protection = some ⟨true, true, true⟩ ∧
    two.machVmRegion (some (.basic true)) 0 0 9 = (.success, ⟨4096, 4096, 9, some ⟨⟨true, false, true⟩, 0, false⟩⟩) := by
  decide

/-! ## What a query reports -/

/-- A success returns the region that was looked for and has filled the info structure for it; another code leaves `*address`,
`*size` and the count. -/
def Honest (m : AddressSpace) (fill : MemoryRegionInfo → RegionInfo) (address size count : Nat) (result : KernReturn × RegionOut) :
    Prop :=
  (result.1 = .success → ∃ r, m.findRegion address = .ok r ∧ result.2.address = r.startAddress ∧ result.2.info = some (fill r)) ∧
  (result.1 ≠ .success → result.2.address = address ∧ result.2.size = size ∧ result.2.count = count)

/-- When `mach_vm_region` is honest: a basic flavor needs a count that is large enough for the region it finds,
`VM_REGION_TOP_INFO` needs a region when the count is larger than its own. -/
def Reports (m : AddressSpace) (address size count : Nat) : Option Flavor → Prop
  | some (.basic is64) => ∀ r, m.findRegion address = .ok r →
    (Flavor.basic is64).infoCount ≤ count ∨ r.startAddress = address ∧ r.pageCount * m.pageSize = size
  | some .top => count ≤ Flavor.top.infoCount ∨ ∃ r, m.findRegion address = .ok r
  | none => True

theorem findRegion_error {kr : KernReturn} (h : m.findRegion address = .error kr) : kr ≠ .success := by
  rw [findRegion_eq] at h
  cases hfirst : m.first address with
  | none =>
    rw [hfirst] at h
    cases h
    decide
  | some r =>
    rw [hfirst] at h
    cases h

/-- When the queries are honest; `mach_vm_region_recurse` needs its one count, or no region. -/
theorem honest_iff (m : AddressSpace) (flavor : Option Flavor) (address size count : Nat) :
    (m.Honest (fun r => (flavor.getD .top).fill r) address size count (m.machVmRegion flavor address size count) ↔
      m.Reports address size count flavor) ∧
    (m.Honest MemoryRegionInfo.submap address size count (m.machVmRegionRecurse address size count) ↔
      ∀ r, m.findRegion address = .ok r → count = submapShortInfoCount64) := by
  constructor
  · obtain _ | is64 | _ := flavor
    · simp [machVmRegion, Honest, Reports]
    · cases hfi : m.findRegion address with
      | error kr => simp [machVmRegion, Honest, Reports, hfi, findRegion_error hfi]
      | ok r =>
        by_cases hcount : count < (Flavor.basic is64).infoCount
        · simp [machVmRegion, returned, Honest, Reports, hfi, hcount, not_le.2 hcount]
        · simp [machVmRegion, returned, Honest, Reports, hfi, hcount, not_lt.1 hcount]
    · by_cases hcount : count < Flavor.top.infoCount
      · simp [machVmRegion, Honest, Reports, hcount, hcount.le]
      · cases hfi : m.findRegion address with
        | error kr =>
          simp [machVmRegion, Honest, Reports, hfi, findRegion_error hfi, hcount]
          omega
        | ok r => simp [machVmRegion, returned, Honest, Reports, hfi, hcount]
  · cases hfi : m.findRegion address with
    | error kr => simp [machVmRegionRecurse, Honest, hfi, findRegion_error hfi]
    | ok r => simp [machVmRegionRecurse, returned, Honest, hfi]

/-- A count that is not supported gives `KERN_SUCCESS` with nothing filled, or a failure that has written `*address`. -/
theorem not_honest : two.machVmRegionRecurse 0 0 19 = (.success, ⟨4096, 4096, 19, none⟩) ∧
    two.machVmRegion (some (.basic true)) 0 0 8 = (.invalidArgument, ⟨4096, 4096, 8, none⟩) := by
  decide

end AddressSpace

end Osxie.DuctTape
