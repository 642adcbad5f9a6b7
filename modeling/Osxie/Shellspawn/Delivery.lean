import Osxie.Shellspawn.ObeyRequest

/-!
# Requests get through the socket if every receive is whole

`Received` is the invariant: the daemon has obeyed the first commands of the request, and what is on the socket or still to be
written are the others, from where the daemon is.
-/

namespace Osxie.Shellspawn

open List Option
open CString Command Cell Nat Spawn

/-! ## Commands on the socket -/

/-- Cells that come first on the socket are received first. -/
theorem take_drop_of_append {stream unsent first rest : List Cell} (h : stream ++ unsent = first ++ rest)
    (hle : first.length ≤ stream.length) :
    stream.take first.length = first ∧ stream.drop first.length ++ unsent = rest := by
  constructor
  · rw [← take_append_of_le_length hle, h, take_left]
  · rw [← drop_append_of_le_length hle, h, drop_left]

namespace Command

variable (c : Command)

theorem length_header : c.header.length = 4 := by rw [header, length_append, length_leBytes, length_leBytes]

theorem headerCells_eq : ∃ byte bytes, c.header = byte :: bytes ∧ c.headerCells = ⟨byte, c.control⟩ :: bytes.map plain := by
  unfold headerCells
  cases hhea : c.header with
  | nil => exact absurd (congrArg length hhea) (by simp [length_header])
  | cons byte bytes => exact ⟨byte, bytes, rfl, rfl⟩

theorem map_byte_plain (bytes : List UInt8) : (bytes.map plain).map byte = bytes := by
  rw [List.map_map]
  exact map_id bytes

theorem map_byte_headerCells : c.headerCells.map byte = c.header := by
  obtain ⟨byte, bytes, hhea, hcl⟩ := c.headerCells_eq
  rw [hcl, hhea, map_cons, map_byte_plain]

theorem length_headerCells : c.headerCells.length = 4 := by
  rw [← length_map, map_byte_headerCells, length_header]

/-- The descriptors are found at the first byte. -/
theorem findSome_headerCells : c.headerCells.findSome? Cell.control = c.control := by
  obtain ⟨byte, bytes, -, hcl⟩ := c.headerCells_eq
  have hplain : (bytes.map Cell.plain).findSome? Cell.control = none := by
    rw [findSome?_eq_none_iff]
    intro cell hcell
    obtain ⟨b, -, rfl⟩ := mem_map.1 hcell
    rfl
  rw [hcl, findSome?_cons, hplain]
  cases c.control <;> rfl

theorem type_header : ofLeBytes (c.header.take 2) = c.type.code := by
  rw [header, take_left' (length_leBytes 2 _), ofLeBytes_leBytes, mod_eq_of_lt c.type.code_lt]

/-- The length is right if it fits. -/
theorem length_data_header {c : Command} (hfits : c.Fits) : ofLeBytes (c.header.drop 2) = c.data.length := by
  rw [header, drop_left' (length_leBytes 2 _), ofLeBytes_leBytes, mod_eq_of_lt hfits]

end Command

/-- A command before `SHELLSPAWN_GO`. -/
structure Command.IsSetup (c : Command) : Prop where
  fits : c.Fits
  type : c.type ≠ .go

theorem isSetup_string {type : CommandType} {s : CString} (hty : type ≠ .go) (hs : s.withNul.length < 256 ^ 2) :
    (pushShellspawnCommand type (some s)).IsSetup := ⟨hs, hty⟩

theorem isSetup_addArgs {args : List CString} (hargs : ∀ arg ∈ args, arg.withNul.length < 256 ^ 2) :
    ∀ c ∈ addArgs args, c.IsSetup := by
  intro c hc
  obtain ⟨arg, harg, rfl⟩ := mem_map.1 hc
  exact isSetup_string (by decide) (hargs arg harg)

theorem isSetup_program {p : Program} (hfits : p.Fits) : ∀ c ∈ p.commands, c.IsSetup := by
  match p with
  | .shell none => exact nofun
  | .shell (some argv) =>
    refine isSetup_addArgs fun arg harg => ?_
    rcases mem_pair.1 harg with rfl | rfl
    · decide +kernel
    · exact hfits
  | .binary path argv =>
    intro c hc
    rcases mem_cons.1 hc with rfl | hc
    · exact isSetup_string (by decide) hfits.1
    · exact isSetup_addArgs hfits.2 c hc

theorem isSetup_sentVars {r : Request} (hfits : r.Fits) : ∀ var ∈ r.sentVars, var.withNul.length < 256 ^ 2 := by
  intro var hvar
  rcases mem_append.1 hvar with hvar | hvar
  · rcases mem_append.1 hvar with hvar | hvar
    · have hfixed : ∀ var ∈ fixedVars, var.withNul.length < 256 ^ 2 := by decide +kernel
      exact hfixed var hvar
    · rw [mem_singleton] at hvar
      subst hvar
      exact lt_of_le_of_lt (length_snprintf (by decide) _) (by decide)
  · exact hfits.1 var hvar

/-- Everything before `SHELLSPAWN_GO` fits. -/
theorem Request.isSetup_of_mem {r : Request} (hfits : r.Fits) : ∀ c ∈ r.setup, c.IsSetup := by
  intro c hc
  rw [setup, r.setupShellspawnEnv_eq] at hc
  rcases mem_append.1 hc with hc | hc
  · rcases mem_append.1 hc with hc | hc
    · obtain ⟨var, hvar, rfl⟩ := mem_map.1 hc
      exact isSetup_string (by decide) (isSetup_sentVars hfits var hvar)
    · exact isSetup_program hfits.2 c hc
  · rcases mem_pair.1 hc with rfl | rfl
    · exact isSetup_string (by decide) (lt_of_le_of_lt (length_snprintf (by decide) _) (by decide))
    · refine ⟨?_, by rintro ⟨⟩⟩
      show (leBytes 4 _ ++ leBytes 4 _).length < 256 ^ 2
      rw [length_append, length_leBytes, length_leBytes]
      decide

namespace Connection

/-- Every receive returns as many bytes as were asked for. -/
def Whole (s : Connection) : Action → Prop
  | .write _ => True
  | .receive n => n = s.requested

instance (s : Connection) (act : Action) : Decidable (s.Whole act) := by
  cases act <;> unfold Whole <;> infer_instance

/-- How far a request has got: where the daemon is, what is on its way and what the daemon has set. -/
inductive Received (enters : CString → Bool) (d : Spawn) (r : Request) : Place → List Cell → Spawn → Prop where
  | command (done rest : List Command) : r.setup = done ++ rest →
      Received enters d r .command ((rest ++ [pushShellspawnCommandFDs .go r.fds]).flatMap cells) (d.obeyAll enters done)
  | param (done : List Command) (c : Command) (rest : List Command) : r.setup = done ++ c :: rest → c.data ≠ [] →
      Received enters d r (.param c.type.code c.data.length c.control)
        (c.data.map plain ++ (rest ++ [pushShellspawnCommandFDs .go r.fds]).flatMap cells) (d.obeyAll enters done)
  | executed : Received enters d r (.executed r.fds.toList) [] (d.obeyAll enters r.setup)

variable {enters : CString → Bool} {d : Spawn} {r : Request} {s : Connection}

theorem Received.of_executed {fds : List Nat} {pending : List Cell} {spawn : Spawn}
    (h : Received enters d r (.executed fds) pending spawn) : fds = r.fds.toList ∧ spawn = d.obeyAll enters r.setup := by
  cases h
  exact ⟨rfl, rfl⟩

/-- A command of the setup has been received. -/
theorem received_handle {done rest : List Command} {c : Command} (hset : r.setup = done ++ c :: rest) (hty : c.type ≠ .go)
    (hcl : s.stream ++ s.unsent = (rest ++ [pushShellspawnCommandFDs .go r.fds]).flatMap cells)
    (hspawn : s.spawn = d.obeyAll enters done) (control : Option (List Nat)) :
    let s' := s.handle enters c.type.code (param c) control
    Received enters d r s'.place (s'.stream ++ s'.unsent) s'.spawn := by
  have hhd : s.handle enters c.type.code (param c) control =
      { s with spawn := s.spawn.obey enters c.type (param c), place := .command } := by
    rw [handle, CommandType.ofCode_code]
    split
    · rename_i heq
      exact absurd (some.inj heq) hty
    · rename_i heq
      rw [some.inj heq]
    · rename_i heq
      cases heq
  have hobey : d.obeyAll enters (done ++ [c]) = s.spawn.obey enters c.type (param c) := by
    rw [obeyAll_append, hspawn]
    rfl
  have hnx : Received enters d r .command _ (d.obeyAll enters (done ++ [c])) :=
    .command (done ++ [c]) rest (by rw [hset, append_assoc, singleton_append])
  rw [hobey, ← hcl] at hnx
  rw [hhd]
  exact hnx

/-- A header has been received: the daemon reads the data, or obeys the command if there is none. -/
theorem received_header (hpl : s.place = .command) {c : Command} (hfits : c.Fits) :
    s.received enters c.headerCells =
      if c.data = [] then s.handle enters c.type.code none c.control
      else { s with place := .param c.type.code c.data.length c.control } := by
  rw [received, hpl]
  simp only [c.length_headerCells, c.map_byte_headerCells, c.findSome_headerCells, c.type_header, length_data_header hfits,
    ne_eq, not_true, if_false, length_eq_zero_iff, ite_not]

theorem received_data {cmd : Nat} {control : Option (List Nat)} {data : List UInt8}
    (hpl : s.place = .param cmd data.length control) :
    s.received enters (data.map plain) = s.handle enters cmd (some data) control := by
  rw [received, hpl]
  simp only [length_map, map_byte_plain, ne_eq, not_true, if_false]

/-- The invariant is about where the daemon is, what is on its way and what the daemon has set. -/
def Invariant (enters : CString → Bool) (d : Spawn) (r : Request) (s : Connection) : Prop :=
  Received enters d r s.place (s.stream ++ s.unsent) s.spawn

theorem invariant_init (enters : CString → Bool) (env : List UInt8 → Option (List UInt8)) (directory : CString) (r : Request) :
    Invariant enters (.new env directory) r (machine enters env directory r).init := by
  have hinit : Received enters (.new env directory) r .command (r.commands.flatMap cells) (.new env directory) :=
    .command [] r.setup rfl
  exact hinit

/-- A receive that returns everything asked for keeps the invariant. -/
theorem invariant_receive (hfits : r.Fits) (h : Invariant enters d r s) (hpos : 0 < s.requested)
    (hle : s.requested ≤ s.stream.length) :
    Invariant enters d r ({ s with stream := s.stream.drop s.requested }.received enters (s.stream.take s.requested)) := by
  obtain ⟨unsent, stream, spawn, place⟩ := s
  simp only [Invariant] at h
  generalize hcl : stream ++ unsent = pending at h
  cases h with
  | command done rest hset =>
    replace hle : 4 ≤ stream.length := hle
    show Invariant enters d r (received enters ⟨unsent, stream.drop 4, _, _⟩ (stream.take 4))
    cases rest with
    | nil =>
      rw [← (pushShellspawnCommandFDs .go r.fds).length_headerCells] at hle ⊢
      have hpd : stream ++ unsent = (pushShellspawnCommandFDs .go r.fds).headerCells ++ [] := hcl
      obtain ⟨htk, hdr⟩ := take_drop_of_append hpd hle
      rw [htk, received_header rfl (show (pushShellspawnCommandFDs .go r.fds).Fits from zero_lt_succ _)]
      show Received enters d r (.executed r.fds.toList) (stream.drop _ ++ unsent) (d.obeyAll enters done)
      rw [hdr, ← append_nil done, ← hset]
      exact .executed
    | cons c rest =>
      have hc := Request.isSetup_of_mem hfits c (hset ▸ mem_append_right done mem_cons_self)
      have hpd : stream ++ unsent = c.headerCells ++ (c.data.map plain ++
          (rest ++ [pushShellspawnCommandFDs .go r.fds]).flatMap cells) := by
        rw [hcl, cons_append, flatMap_cons, cells, append_assoc]
      rw [← c.length_headerCells] at hle ⊢
      obtain ⟨htk, hdr⟩ := take_drop_of_append hpd hle
      rw [htk, received_header rfl hc.fits]
      by_cases hda : c.data = []
      · have hparam : param c = none := if_pos hda
        rw [if_pos hda, ← hparam]
        refine received_handle hset hc.type ?_ rfl c.control
        rw [hdr, hda]
        rfl
      · rw [if_neg hda]
        show Received enters d r (.param _ _ _) (stream.drop _ ++ unsent) (d.obeyAll enters done)
        rw [hdr]
        exact .param done c rest hset hda
  | param done c rest hset hda =>
    have hc := Request.isSetup_of_mem hfits c (hset ▸ mem_append_right done mem_cons_self)
    show Invariant enters d r (received enters ⟨unsent, stream.drop c.data.length, _, _⟩ (stream.take c.data.length))
    have hlen : (c.data.map plain).length = c.data.length := length_map _
    obtain ⟨htk, hdr⟩ := take_drop_of_append hcl (hlen ▸ hle)
    rw [hlen] at htk hdr
    have hparam : param c = some c.data := if_neg hda
    rw [htk, received_data rfl, ← hparam]
    exact received_handle hset hc.type hdr rfl c.control
  | executed => cases hpos

variable {s' : Connection}

theorem invariant_step (hfits : r.Fits) {act : Action} (h : Invariant enters d r s) (hwhole : s.Whole act)
    (hst : step enters s act = some s') : Invariant enters d r s' := by
  cases act with
  | write n =>
    obtain ⟨-, rfl⟩ := of_guarded hst
    show Received enters d r s.place (s.stream ++ s.unsent.take n ++ s.unsent.drop n) s.spawn
    rw [append_assoc, take_append_drop]
    exact h
  | receive n =>
    obtain ⟨⟨hpos, -, hle⟩, rfl⟩ := of_guarded hst
    obtain rfl : n = s.requested := hwhole
    exact invariant_receive hfits h hpos hle

/-- What is asked for is on its way. -/
theorem requested_le (h : Invariant enters d r s) : s.requested ≤ s.stream.length + s.unsent.length := by
  obtain ⟨unsent, stream, spawn, place⟩ := s
  rw [← length_append]
  simp only [Invariant] at h ⊢
  generalize stream ++ unsent = pending at h ⊢
  cases h with
  | command done rest hset =>
    have hfour (c : Command) : 4 ≤ c.cells.length := by
      rw [cells, length_append]
      exact le_add_right 4 _
    cases rest with
    | nil => exact hfour (pushShellspawnCommandFDs .go r.fds)
    | cons c rest =>
      rw [cons_append, flatMap_cons, length_append]
      exact le_add_right_of_le (hfour c)
  | param done c rest hset hda =>
    rw [length_append, length_map]
    exact le_add_right _ _
  | executed => exact le_refl 0

def left (s : Connection) : Nat := 2 * s.unsent.length + s.stream.length

theorem received_left (s : Connection) (cells : List Cell) : (s.received enters cells).left = s.left := by
  have hhd (cmd : Nat) (param : Option (List UInt8)) (control : Option (List Nat)) :
    (s.handle enters cmd param control).left = s.left := by
    unfold handle
    split <;> rfl
  unfold received
  split
  · split
    · rfl
    · dsimp only
      split
      · rfl
      · exact hhd _ _ _
  · split
    · rfl
    · exact hhd _ _ _
  all_goals rfl

/-- Every step leaves less to do. -/
theorem left_lt {act : Action} (hst : step enters s act = some s') : s'.left < s.left := by
  cases act with
  | write n =>
    obtain ⟨⟨hpos, hle⟩, rfl⟩ := of_guarded hst
    simp only [left, length_drop, length_append, length_take]
    omega
  | receive n =>
    obtain ⟨⟨hpos, -, hle⟩, rfl⟩ := of_guarded hst
    rw [received_left]
    simp only [left, length_drop]
    omega

/-- As long as the daemon asks for something, the client can write or the daemon receives it whole. -/
theorem exists_step (h : Invariant enters d r s) (hpos : 0 < s.requested) :
    ∃ act s', s.Whole act ∧ step enters s act = some s' := by
  by_cases hle : s.requested ≤ s.stream.length
  · exact ⟨.receive s.requested, _, rfl, if_pos ⟨hpos, le_rfl, hle⟩⟩
  · have huns : 0 < s.unsent.length := by
      have := requested_le h
      omega
    exact ⟨.write s.unsent.length, _, trivial, if_pos ⟨huns, le_rfl⟩⟩

/-- A receive that returns less than was asked for is an error. -/
theorem error_of_short {n : Nat} (hsh : n ≠ s.requested) (hst : step enters s (.receive n) = some s') : s'.place = .error := by
  obtain ⟨⟨hpos, hle, hstored⟩, rfl⟩ := of_guarded hst
  have hlen : (s.stream.take n).length = n := length_take_of_le hstored
  unfold requested at hsh hle
  unfold received
  cases hpl : s.place with
  | command | param cmd length control =>
    rw [hpl] at hsh
    simp only [hlen, ne_eq, hsh, not_false_eq_true, if_true]
  | executed fds =>
    rw [hpl] at hle
    exact absurd hpos (not_lt.2 hle)
  | error => rfl

/-- The program of a request is executed as the client has sent it, without a protocol error, if the strings of the request
fit and every receive is whole: the daemon never comes to an error, it executes nothing else, until it does there is a step to
be taken, and every step leaves less to do. A receive that is not whole is an error at once. -/
theorem executed_of_whole {enters : CString → Bool} {r : Request} (env : List UInt8 → Option (List UInt8)) (directory : CString)
    (hfits : r.Fits) (henters : enters (containerDirectory r.workingDirectory) = true) {s : Connection}
    (h : (machine enters env directory r).Reaches Whole s) :
    s.place ≠ .error ∧ (∀ fds, s.place = .executed fds → fds = r.fds.toList ∧ s.spawn.Matches r) ∧
      ((∀ fds, s.place ≠ .executed fds) → ∃ act s', s.Whole act ∧ step enters s act = some s') ∧
      (∀ act s', step enters s act = some s' → s'.left < s.left) ∧
      ∀ n s', n ≠ s.requested → step enters s (.receive n) = some s' → s'.place = .error := by
  have hinv : Invariant enters (.new env directory) r s :=
    h.invariant (invariant_init enters env directory r)
      (invariant_step hfits)
  obtain ⟨unsent, stream, spawn, place⟩ := s
  refine ⟨?_, ?_, fun hpl => exists_step hinv ?_, fun act s' => left_lt, fun n s' => error_of_short⟩
  all_goals
    simp only [Invariant] at hinv
    generalize stream ++ unsent = pending at hinv
  · rintro ⟨⟩
    cases hinv
  · rintro fds ⟨⟩
    obtain ⟨hfiles, hspawn⟩ := hinv.of_executed
    refine ⟨hfiles, ?_⟩
    show spawn.Matches r
    rw [hspawn]
    exact r.matches_setup henters env directory
  · cases hinv with
    | command => exact succ_pos 3
    | param done c rest hset hda =>
      exact length_pos_iff.2 hda
    | executed => exact absurd rfl (hpl _)

def loginShell : Request where
  login := literal "user"
  environ := [literal "LANG=C"]
  program := .shell none
  workingDirectory := literal "/"
  originalUid := 1000
  originalGid := 1000
  fds := ⟨5, 6, 7⟩

theorem loginShell_fits : loginShell.Fits := ⟨by decide +kernel, trivial⟩

/-- The client writes everything, and the daemon receives it command by command. -/
def wholeRun : List Action :=
  .write (loginShell.commands.flatMap cells).length ::
    (loginShell.setup.flatMap fun c => [.receive 4, .receive c.data.length]) ++ [.receive 4]

/-- The daemon executes the shell that was asked for. -/
theorem executed_of_whole_loginShell :
    ∃ s, (machine (fun _ => true) (fun _ => none) bash loginShell).Reaches Whole s ∧ s.place = .executed [5, 6, 7] ∧
      s.spawn.Matches loginShell := by
  refine (Machine.exists_reaches_of_runOk Whole wholeRun ?_).imp
    fun s h => ⟨h.1, h.2, ((executed_of_whole _ _ loginShell_fits rfl h.1).2.1 _ h.2).2⟩
  decide +kernel

/-- The first receive returns two of the four bytes of a header. -/
theorem split_header_error : ∃ s, (machine (fun _ => true) (fun _ => none) bash loginShell).Reachable s ∧ s.place = .error := by
  exact Machine.exists_reachable_of_run [.write 2, .receive 2] (by decide +kernel)

end Connection

end Osxie.Shellspawn
