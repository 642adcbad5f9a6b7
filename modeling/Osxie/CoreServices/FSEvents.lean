import Osxie.Lib.Machine
import Osxie.Lib.Threads

/-!
# File-system events

The dispatch source of an `FSEventsImpl` reads inotify events on a queue of its own (`_readEvents`), adds an entry for each to
three parallel arrays, and has the user's callback called on a queue or run loop of the user's. `_doCallback` suspends the
source, waits until it has stopped reading, passes the arrays to the callback, and empties them.

Any number of callbacks may be underway, unless the user's queue is serial.
-/

namespace Osxie.CoreServices

open List Option

/-! ## The constants -/

/-- The bits of an inotify event's mask. -/
def inModify : Nat := 0x2
def inAttrib : Nat := 0x4
def inMovedFrom : Nat := 0x40
def inMovedTo : Nat := 0x80
def inCreate : Nat := 0x100
def inDelete : Nat := 0x200
def inDeleteSelf : Nat := 0x400
def inMoveSelf : Nat := 0x800
def inIsDir : Nat := 0x40000000

/-- `kFSEventStreamCreateFlag…`. -/
def createFlagUseCFTypes : Nat := 0x1
def createFlagFileEvents : Nat := 0x10
def createFlagUseExtendedData : Nat := 0x40

/-- `kFSEventStreamEventFlag…`. -/
def eventFlagItemCreated : Nat := 0x100
def eventFlagItemRemoved : Nat := 0x200
def eventFlagItemRenamed : Nat := 0x800
def eventFlagItemModified : Nat := 0x1000
def eventFlagItemChangeOwner : Nat := 0x4000
def eventFlagItemXattrMod : Nat := 0x8000
def eventFlagItemIsFile : Nat := 0x10000
def eventFlagItemIsDir : Nat := 0x20000

/-- `kFSEventStreamEventExtendedDataPathKey`. -/
def extendedDataPathKey : String := "path"

/-- `mask & bits`, as a condition. -/
def hasAny (mask bits : Nat) : Bool := mask &&& bits != 0

/-! ## The state -/

/-- `struct inotify_event`. `len` counts the bytes of the name with its padding, which the kernel bounds. -/
structure InotifyEvent where
  wd : Int
  mask : Nat
  len : Nat
  name : String
  len_le : len ≤ 256
deriving DecidableEq

def InotifyEvent.size (evt : InotifyEvent) : Nat := 16 + evt.len

def readBytes : Nat := 16 + 4096 + 1

/-- How an `FSEventsImpl` was created: its flags, the path of each watch, whether it has a dispatch queue, and whether the queue, or
the run loop, makes one callback after the other. -/
structure FSEventsConfig where
  flags : Nat
  wdMap : Int → Option String
  queue : Bool
  serial : Bool

inductive ReadPlace where
  | idle
  | reading
  | dispatching
deriving DecidableEq

/-- What `ptrToPass` points to: the array of the paths itself, or a copy of it as C strings or as dictionaries. -/
inductive PathPointer where
  | pathArray
  | cpathArray (paths : List String)
  | dicts (dictionaries : List (String × String))
deriving DecidableEq

def PathPointer.paths (pathArray : List String) : PathPointer → List String
  | .pathArray => pathArray
  | .cpathArray paths => paths
  | .dicts dictionaries => dictionaries.map Prod.snd

/-- What one call of the user's callback is passed. -/
structure Invocation where
  numEvents : Nat
  eventPaths : List String
  eventFlags : List Nat
  eventIds : List Nat
deriving DecidableEq

/-- A path, its flags and its ID. -/
abbrev Report := String × Nat × Nat

/-- The entries of three parallel arrays. -/
def entries (paths : List String) (flags ids : List Nat) : List Report := paths.zip (flags.zip ids)

def Invocation.events (i : Invocation) : List Report := (entries i.eventPaths i.eventFlags i.eventIds).take i.numEvents

/-- The arrays of a call have as many entries as it says. -/
structure Invocation.Whole (i : Invocation) : Prop where
  paths : i.eventPaths.length = i.numEvents
  flags : i.eventFlags.length = i.numEvents
  ids : i.eventIds.length = i.numEvents

/-- The members of an `FSEventsImpl`, how often its source is suspended, the callbacks that were dispatched and have not begun, the
kernel's queue, and what has been read and passed to the user. -/
structure FSEventsImpl where
  pathArray : List String
  flagArray : List Nat
  idArray : List Nat
  lastEventID : Nat
  running : Bool
  suspensions : Nat
  handler : ReadPlace
  dispatched : Nat
  queued : List InotifyEvent
  taken : List InotifyEvent
  invocations : List Invocation

/-- Where a callback is: the statement of `_doCallback` that comes next. -/
inductive CallbackPlace where
  | idle
  | suspend
  | sync
  | copy
  | call (ptrToPass : PathPointer)
  | clear
deriving DecidableEq

namespace CallbackPlace

/-- The callback has copied the paths, and not emptied the arrays. -/
def holds : CallbackPlace → Bool
  | call _ | clear => true
  | _ => false

def suspends : CallbackPlace → Bool
  | sync | copy | call _ | clear => true
  | _ => false

/-- The callback has waited for the handler. -/
def stills : CallbackPlace → Bool
  | copy | call _ | clear => true
  | _ => false

/-- The callback is to call the user's one. -/
def comes : CallbackPlace → Bool
  | suspend | sync | copy | call _ => true
  | _ => false

def rest : CallbackPlace → Nat
  | idle => 0
  | clear => 1
  | call _ => 2
  | copy => 3
  | sync => 4
  | suspend => 5

end CallbackPlace

namespace FSEventsImpl

variable (config : FSEventsConfig)

/-- `initWithPaths:flags:context:callback:`. A dispatch source is suspended when it is created. -/
def init : FSEventsImpl where
  pathArray := []
  flagArray := []
  idArray := []
  lastEventID := 0
  running := false
  suspensions := 1
  handler := .idle
  dispatched := 0
  queued := []
  taken := []
  invocations := []

def fullPath (evt : InotifyEvent) (watchPath : String) : String :=
  if ¬hasAny config.flags createFlagFileEvents then watchPath
  else if evt.len = 0 then watchPath
  else watchPath ++ "/" ++ evt.name

def eventFlags (evt : InotifyEvent) : Nat :=
  if ¬hasAny config.flags createFlagFileEvents then 0
  else
    (if hasAny evt.mask inIsDir then eventFlagItemIsDir else eventFlagItemIsFile) |||
    (if hasAny evt.mask (inDelete ||| inDeleteSelf) then eventFlagItemRemoved else 0) |||
    (if hasAny evt.mask (inMoveSelf ||| inMovedFrom ||| inMovedTo) then eventFlagItemRenamed else 0) |||
    (if hasAny evt.mask inModify then eventFlagItemModified else 0) |||
    (if hasAny evt.mask inCreate then eventFlagItemCreated else 0) |||
    (if hasAny evt.mask inAttrib then eventFlagItemChangeOwner ||| eventFlagItemXattrMod else 0)

/-- `realloc`. What it adds is not set; it is written before it is read. -/
def realloc (array : List Nat) (count : Nat) : List Nat := array.take count ++ replicate (count - array.length) 0

variable (s : FSEventsImpl)

def processSingleEvent (evt : InotifyEvent) : FSEventsImpl :=
  match config.wdMap evt.wd with
  | none => s
  | some watchPath =>
    let pathArray := s.pathArray ++ [fullPath config evt watchPath]
    let newCount := pathArray.length
    let lastEventID := (s.lastEventID + 1) % 2 ^ 64
    { s with
      pathArray := pathArray
      flagArray := (realloc s.flagArray newCount).set (newCount - 1) (eventFlags config evt)
      idArray := (realloc s.idArray newCount).set (newCount - 1) lastEventID
      lastEventID := lastEventID }

/-- A `read` that returns the first `count` events of the kernel's queue, and the processing of the buffer. -/
def read (count : Nat) : FSEventsImpl :=
  let buffer := s.queued.take count
  let s := { s with queued := s.queued.drop count, taken := s.taken ++ buffer }
  match buffer with
  | [] => s
  | evt :: _ => s.processSingleEvent config evt

def start : FSEventsImpl :=
  if s.running then s else { s with suspensions := s.suspensions - 1, running := true }

def stop : FSEventsImpl :=
  if s.running then { s with suspensions := s.suspensions + 1, running := false } else s

/-- `_dispatchEvents`. A run loop source that has been signalled already stays so. -/
def dispatchEvents : FSEventsImpl :=
  if config.queue then { s with dispatched := s.dispatched + 1 } else { s with dispatched := 1 }

/-- The copy of the paths that `_doCallback` makes. -/
def ptrToPass : PathPointer :=
  if ¬hasAny config.flags createFlagUseCFTypes then .cpathArray s.pathArray
  else if hasAny config.flags createFlagUseExtendedData then .dicts (s.pathArray.map (extendedDataPathKey, ·))
  else .pathArray

def callback (ptrToPass : PathPointer) : FSEventsImpl :=
  { s with
    invocations := s.invocations ++ [⟨s.pathArray.length, ptrToPass.paths s.pathArray, s.flagArray, s.idArray⟩] }

/-- What `_doCallback` does after the call. -/
def clear : FSEventsImpl :=
  { s with flagArray := [], idArray := [], pathArray := [], suspensions := s.suspensions - 1 }

def arrived : List InotifyEvent := s.taken ++ s.queued

def delivered : List Report := s.invocations.flatMap Invocation.events

end FSEventsImpl

/-! ## The steps -/

inductive FSEventsAction (τ : Type) where
  | arrive (evt : InotifyEvent)
  | start
  | stop
  /-- the source finds its descriptor readable -/
  | wake
  | read (count : Nat)
  /-- `read` fails with `EINTR` -/
  | interrupted
  /-- `read` fails with `EAGAIN` -/
  | drained
  | failed
  | dispatch
  | begin (c : τ)
  | advance (c : τ)
deriving DecidableEq

/-- A step of the implementation, and not of the kernel or the user. An interrupted `read` is repeated. -/
def FSEventsAction.works {τ : Type} : FSEventsAction τ → Bool
  | .wake | .read _ | .drained | .dispatch | .begin _ | .advance _ => true
  | .arrive _ | .start | .stop | .interrupted | .failed => false

abbrev FSEvents (τ : Type) := Threads τ FSEventsImpl CallbackPlace

namespace FSEvents

section

variable {τ : Type} [DecidableEq τ] [Fintype τ] (config : FSEventsConfig)

def init : FSEvents τ := ⟨.init, fun _ => .idle⟩

/-- The next statement of `_doCallback`. The empty block runs on the source's queue when its handler does not. -/
def advance (s : FSEventsImpl) : CallbackPlace → Option (FSEventsImpl × CallbackPlace)
  | .idle => none
  | .suspend => some ({ s with suspensions := s.suspensions + 1 }, .sync)
  | .sync => if s.handler = .idle then some (s, .copy) else none
  | .copy => some (s, .call (s.ptrToPass config))
  | .call ptrToPass => some (s.callback ptrToPass, .clear)
  | .clear => some (s.clear, .idle)

variable (s : FSEvents τ)

/-- The user's queue, or a run loop, may begin the callback now. -/
def MayBegin (c : τ) : Prop :=
  0 < s.word.dispatched ∧ s.pc c = .idle ∧ (config.serial = true → ∀ d, s.pc d = .idle)

instance (c : τ) : Decidable (s.MayBegin config c) := inferInstanceAs (Decidable (_ ∧ _ ∧ _))

/-- The kernel returns whole events that fit into the buffer, and at least one. -/
def MayRead (s : FSEventsImpl) (count : Nat) : Prop :=
  s.handler = .reading ∧ 0 < count ∧ count ≤ s.queued.length ∧ ((s.queued.take count).map InotifyEvent.size).sum ≤ readBytes

instance (s : FSEventsImpl) (count : Nat) : Decidable (MayRead s count) := inferInstanceAs (Decidable (_ ∧ _ ∧ _ ∧ _))

/-- A step of anybody but a callback. -/
def act (s : FSEventsImpl) : FSEventsAction τ → Option FSEventsImpl
  | .arrive evt => some { s with queued := s.queued ++ [evt] }
  | .start => some s.start
  | .stop => some s.stop
  | .wake => if s.handler = .idle ∧ s.suspensions = 0 ∧ s.queued ≠ [] then some { s with handler := .reading } else none
  | .read count => if MayRead s count then some (s.read config count) else none
  | .interrupted => if s.handler = .reading then some s else none
  | .drained => if s.handler = .reading ∧ s.queued = [] then some { s with handler := .dispatching } else none
  | .failed => if s.handler = .reading then some { s.stop with handler := .dispatching } else none
  | .dispatch => if s.handler = .dispatching then some { s.dispatchEvents config with handler := .idle } else none
  | .begin _ | .advance _ => none

def step : FSEventsAction τ → Option (FSEvents τ)
  | .begin c =>
    if s.MayBegin config c then some (s.set c ({ s.word with dispatched := s.word.dispatched - 1 }, .suspend)) else none
  | .advance c => (advance config s.word (s.pc c)).map (s.set c)
  | a => (act config s.word a).map fun word => { s with word := word }

/-- An `FSEventsImpl`, from its creation on. -/
def machine (τ : Type) [DecidableEq τ] [Fintype τ] : Machine (FSEvents τ) (FSEventsAction τ) where
  init := init
  step := step config

/-! ## Reports -/

/-- The path and the flags that are to be reported for an event, if its watch is known. -/
def derived (evt : InotifyEvent) : Option (String × Nat) :=
  (config.wdMap evt.wd).map fun watchPath => (FSEventsImpl.fullPath config evt watchPath, FSEventsImpl.eventFlags config evt)

/-- What is to be reported for events: those of known watches, in order, numbered from 1 on. -/
def reports (evts : List InotifyEvent) : List Report :=
  (evts.filterMap (derived config)).zipIdx.map fun r => (r.1.1, r.1.2, (r.2 + 1) % 2 ^ 64)

/-- Nothing is left to do: no step of the implementation is possible. -/
def Settled : Prop := ∀ a : FSEventsAction τ, a.works = true → s.step config a = none

def handlerRest (s : FSEventsImpl) : Nat :=
  match s.handler with
  | .idle => if s.queued = [] then 0 else 9
  | .reading => 8
  | .dispatching => 7 + if s.queued = [] then 0 else 9

/-- A bound on the steps that are left. -/
def work : Nat := s.word.queued.length + handlerRest s.word + 6 * s.word.dispatched + ∑ c, (s.pc c).rest

/-- The events passed to the callback are at any time the first ones of those that are to be reported, each once and in order.
Between events from outside the implementation does at most so many steps, and when it can do no more, all have been passed. -/
structure ReportedOnce (s : FSEvents τ) : Prop where
  whole : ∀ i ∈ s.word.invocations, i.Whole
  inOrder : s.word.delivered <+: reports config s.word.arrived
  bounded : ∀ as s', (∀ a ∈ as, a.works = true) → (machine config τ).run s as = some s' → as.length ≤ s.work
  complete : s.word.running = true → s.Settled config → s.word.delivered = reports config s.word.arrived

/-- A read returns, after its first event, events of no known watch; and unless the callbacks are made one after the other, none
copies the paths while another one has copied them and not emptied the arrays. -/
def Keeps : FSEventsAction τ → Prop
  | .read count => ∀ evt ∈ (s.word.queued.take count).tail, config.wdMap evt.wd = none
  | .advance c => s.pc c = .copy → config.serial = true ∨ ∀ d, (s.pc d).holds = false
  | _ => True

instance (a : FSEventsAction τ) : Decidable (s.Keeps config a) := by
  cases a <;> unfold Keeps <;> infer_instance

end

/-! ## What is to be reported -/

variable {τ : Type} [Fintype τ] {config : FSEventsConfig}

theorem reports_append (evts evts' : List InotifyEvent) : reports config evts <+: reports config (evts ++ evts') := by
  simp only [reports, filterMap_append, zipIdx_append, map_append]
  exact prefix_append ..

variable {evt : InotifyEvent} {a : FSEventsAction τ} {c : τ}

theorem derived_eq_none (h : config.wdMap evt.wd = none) : derived config evt = none := by
  simp [derived, h]

/-- Events of no known watch are not reported. -/
theorem filterMap_unknown {evts evts' : List InotifyEvent} (h : ∀ evt ∈ evts', config.wdMap evt.wd = none) :
    (evts ++ evts').filterMap (derived config) = evts.filterMap (derived config) := by
  have hnn : evts'.filterMap (derived config) = [] := filterMap_eq_nil_iff.2 fun evt hevt => derived_eq_none (h evt hevt)
  rw [filterMap_append, hnn, append_nil]

/-- One more event of a known watch is one more report, with the next number. -/
theorem reports_known {evts : List InotifyEvent} {watchPath : String} (h : config.wdMap evt.wd = some watchPath) :
    reports config (evts ++ [evt]) = reports config evts ++
      [(FSEventsImpl.fullPath config evt watchPath, FSEventsImpl.eventFlags config evt,
        ((evts.filterMap (derived config)).length + 1) % 2 ^ 64)] := by
  simp [reports, derived, h, zipIdx_append]

/-! ## The arrays -/

/-- An array that grows by one entry. -/
theorem set_realloc (array : List Nat) (x : Nat) :
    (FSEventsImpl.realloc array (array.length + 1)).set array.length x = array ++ [x] := by
  simp [FSEventsImpl.realloc, take_of_length_le]

theorem entries_append {paths : List String} {flags ids : List Nat} (hfl : flags.length = paths.length)
    (hids : ids.length = paths.length) (path : String) (flag id : Nat) :
    entries (paths ++ [path]) (flags ++ [flag]) (ids ++ [id]) = entries paths flags ids ++ [(path, flag, id)] := by
  unfold entries
  rw [zip_append (hfl.trans hids.symm), zip_append (by simp [hfl, hids])]
  rfl

/-- The arrays are parallel, and the last ID counts the reports. -/
structure Accounts (config : FSEventsConfig) (s : FSEventsImpl) : Prop where
  flags : s.flagArray.length = s.pathArray.length
  ids : s.idArray.length = s.pathArray.length
  last : s.lastEventID = (s.taken.filterMap (derived config)).length % 2 ^ 64

def buffered (s : FSEventsImpl) : List Report := entries s.pathArray s.flagArray s.idArray

/-- The arrays after a read, and the reports that are to be made. -/
structure Reads (config : FSEventsConfig) (s s' : FSEventsImpl) : Prop where
  accounts : Accounts config s'
  reported : ∃ new, buffered s' = buffered s ++ new ∧ reports config s'.taken = reports config s.taken ++ new

/-- A read of an event, and of others that are of no known watch. -/
theorem read_spec {s : FSEventsImpl} {count : Nat} {others : List InotifyEvent} (h : Accounts config s)
    (hbuf : s.queued.take count = evt :: others) (hoth : ∀ evt ∈ others, config.wdMap evt.wd = none) :
    ∃ pathArray flagArray idArray lastEventID,
      s.read config count = { s with
        pathArray := pathArray
        flagArray := flagArray
        idArray := idArray
        lastEventID := lastEventID
        queued := s.queued.drop count
        taken := s.taken ++ evt :: others } ∧
      Reads config s (s.read config count) := by
  have htak : s.taken ++ evt :: others = (s.taken ++ [evt]) ++ others := by simp
  unfold FSEventsImpl.read
  simp only [hbuf]
  unfold FSEventsImpl.processSingleEvent
  cases hevt : config.wdMap evt.wd with
  | none =>
    have hall : ∀ e ∈ evt :: others, config.wdMap e.wd = none := by
      intro e he
      rcases mem_cons.1 he with rfl | he
      · exact hevt
      · exact hoth e he
    refine ⟨_, _, _, _, rfl, ⟨h.flags, h.ids, ?_⟩, [], by simp [buffered], ?_⟩
    · rw [filterMap_unknown hall]
      exact h.last
    · simp only [reports, filterMap_unknown hall, append_nil]
  | some watchPath =>
    have hcount : (s.taken ++ evt :: others).filterMap (derived config) = (s.taken ++ [evt]).filterMap (derived config) := by
      rw [htak, filterMap_unknown hoth]
    have hid : (s.lastEventID + 1) % 2 ^ 64 = ((s.taken.filterMap (derived config)).length + 1) % 2 ^ 64 := by
      rw [h.last, Nat.mod_add_mod]
    have hfl := set_realloc s.flagArray (FSEventsImpl.eventFlags config evt)
    have hids := set_realloc s.idArray ((s.lastEventID + 1) % 2 ^ 64)
    rw [h.flags] at hfl
    rw [h.ids] at hids
    refine ⟨_, _, _, _, rfl, ⟨?_, ?_, ?_⟩,
      [(FSEventsImpl.fullPath config evt watchPath, FSEventsImpl.eventFlags config evt, (s.lastEventID + 1) % 2 ^ 64)], ?_, ?_⟩
    · simp only [length_append, length_singleton, Nat.add_sub_cancel, hfl, h.flags]
    · simp only [length_append, length_singleton, Nat.add_sub_cancel, hids, h.ids]
    · rw [hcount]
      simpa [derived, hevt] using hid
    · simp only [buffered, length_append, length_singleton, Nat.add_sub_cancel, hfl, hids]
      exact entries_append h.flags h.ids ..
    · rw [show reports config (s.taken ++ evt :: others) = reports config (s.taken ++ [evt]) by simp only [reports, hcount],
        reports_known hevt, hid]

/-! ## The invariant -/

/-- Where the callbacks are: at most one of them has copied the paths and not emptied the arrays, and while any of them is past its
wait for the handler, the handler does not run. -/
structure Places (config : FSEventsConfig) (s : FSEvents τ) : Prop where
  alone : ∀ c d, (s.pc c).holds = true → (s.pc d).holds = true → c = d
  serial : config.serial = true → ∀ c d, s.pc c ≠ .idle → s.pc d ≠ .idle → c = d
  suspended : s.word.suspensions = s.count CallbackPlace.suspends + if s.word.running then 0 else 1
  still : ∀ c, (s.pc c).stills = true → s.word.handler = .idle

/-- What has been passed to the callback and the entries of the arrays make up the reports for the events that were read. If the
arrays are not empty, the handler is to dispatch a callback, or one has been dispatched, or one is on its way. -/
structure Inv (config : FSEventsConfig) (s : FSEvents τ) : Prop where
  places : Places config s
  accounts : Accounts config s.word
  passed : (∀ c, s.pc c ≠ .clear) → s.word.delivered ++ buffered s.word = reports config s.word.taken
  passing : ∀ c, s.pc c = .clear → s.word.delivered = reports config s.word.taken
  copied : ∀ c ptrToPass, s.pc c = .call ptrToPass → ptrToPass.paths s.word.pathArray = s.word.pathArray
  coming : s.word.pathArray ≠ [] → (∀ c, s.pc c ≠ .clear) →
    s.word.handler ≠ .idle ∨ 0 < s.word.dispatched ∨ ∃ c, (s.pc c).comes = true
  whole : ∀ i ∈ s.word.invocations, i.Whole

variable {s s' : FSEvents τ}

theorem inv_init : Inv config (init : FSEvents τ) where
  places := by
    refine ⟨nofun, fun _ c d h => absurd rfl h, ?_, nofun⟩
    rw [Threads.count_eq_zero.2 fun _ => rfl]
    rfl
  accounts := ⟨rfl, rfl, rfl⟩
  passed _ := rfl
  passing := nofun
  copied := nofun
  coming h := absurd rfl h
  whole := nofun

/-! ### The handler and the user -/

section

variable (h : Inv config s)

include h

/-- A step that changes neither the arrays nor what was read or passed. -/
theorem Inv.frame {running : Bool} {suspensions : Nat} {handler : ReadPlace} {dispatched : Nat} (queued : List InotifyEvent)
    (hsu : suspensions + (if s.word.running then 0 else 1) = s.word.suspensions + if running then 0 else 1)
    (hstill : handler = .idle ∨ ∀ c, (s.pc c).stills = false)
    (hcom : s.word.handler ≠ .idle ∨ 0 < s.word.dispatched → handler ≠ .idle ∨ 0 < dispatched) :
    Inv config { s with
      word := { s.word with
        running := running
        suspensions := suspensions
        handler := handler
        dispatched := dispatched
        queued := queued } } where
  places := by
    refine ⟨h.places.alone, h.places.serial, ?_, ?_⟩
    · have hs := h.places.suspended
      show suspensions = s.count CallbackPlace.suspends + if running then 0 else 1
      omega
    · intro c hc
      rcases hstill with hdl | hnn
      · exact hdl
      · exact absurd ((hnn c).symm.trans hc) Bool.false_ne_true
  accounts := ⟨h.accounts.flags, h.accounts.ids, h.accounts.last⟩
  passed := h.passed
  passing := h.passing
  copied := h.copied
  coming := by
    intro hpaths hcl
    rcases h.coming hpaths hcl with hhd | hds | hcomes
    · exact (hcom (.inl hhd)).imp_right .inl
    · exact (hcom (.inr hds)).imp_right .inl
    · exact .inr (.inr hcomes)
  whole := h.whole

/-- Where the handler runs, no callback has waited for it. -/
theorem Inv.stills_of_handler (hhd : s.word.handler ≠ .idle) (c : τ) : (s.pc c).stills = false := by
  cases hc : (s.pc c).stills with
  | false => rfl
  | true => exact absurd (h.places.still c hc) hhd

theorem Inv.idle_or_stills : s.word.handler = .idle ∨ ∀ c, (s.pc c).stills = false := by
  by_cases hdl : s.word.handler = .idle
  · exact .inl hdl
  · exact .inr (h.stills_of_handler hdl)

omit h in
theorem clear_stills {p : CallbackPlace} (h : p.stills = false) : p ≠ .clear := by
  rintro rfl
  cases h

/-- A read: the entries of the arrays grow with the reports that are to be made. -/
theorem Inv.read {count : Nat} (hrd : MayRead s.word count)
    (hoth : ∀ evt ∈ (s.word.queued.take count).tail, config.wdMap evt.wd = none) :
    Inv config { s with word := s.word.read config count } := by
  obtain ⟨hhd, hpos, hle, -⟩ := hrd
  have hsti := h.stills_of_handler (by rw [hhd]; nofun)
  obtain ⟨evt, others, hbuf⟩ : ∃ evt others, s.word.queued.take count = evt :: others := by
    refine exists_cons_of_ne_nil fun hnil => ?_
    have hlen := congrArg length hnil
    rw [length_take, length_nil] at hlen
    omega
  rw [hbuf] at hoth
  obtain ⟨paths, flags, ids, last, heq, hacc, new, hnew, hrep⟩ := read_spec h.accounts hbuf hoth
  have hpas := h.passed fun c => clear_stills (hsti c)
  rw [heq] at hacc hnew hrep ⊢
  refine ⟨⟨h.places.alone, h.places.serial, h.places.suspended, h.places.still⟩, hacc, ?_, ?_, ?_, ?_, h.whole⟩
  · intro _
    rw [hnew, hrep, ← hpas, append_assoc]
    rfl
  · intro c hc
    exact absurd hc (clear_stills (hsti c))
  · intro c p hc
    have := hsti c
    rw [show s.pc c = .call p from hc] at this
    cases this
  · intro _ _
    exact .inl (by rw [hhd]; nofun)

theorem Inv.stop : Inv config { s with word := s.word.stop } := by
  unfold FSEventsImpl.stop
  split
  · rename_i hrn
    refine h.frame _ ?_ ?_ id
    · rw [hrn]
      rfl
    · exact h.idle_or_stills
  · exact h

theorem Inv.act (hok : s.Keeps config a) {word : FSEventsImpl} (hact : FSEvents.act config s.word a = some word) :
    Inv config { s with word := word } := by
  cases a with
  | arrive evt =>
    cases hact
    exact h.frame _ rfl h.idle_or_stills id
  | start =>
    cases hact
    unfold FSEventsImpl.start
    split
    · exact h
    · rename_i hrn
      have hsu := h.places.suspended
      rw [if_neg hrn] at hsu
      refine h.frame _ ?_ h.idle_or_stills id
      rw [if_neg hrn]
      show s.word.suspensions - 1 + 1 = s.word.suspensions + 0
      omega
  | stop =>
    cases hact
    exact h.stop
  | wake =>
    obtain ⟨⟨-, hsus, -⟩, rfl⟩ := of_guarded hact
    refine h.frame _ rfl (.inr fun c => ?_) fun _ => .inl nofun
    -- the source is not suspended, so no callback has suspended it
    have hsu := h.places.suspended
    have hze : s.count CallbackPlace.suspends = 0 := by omega
    have hc := Threads.count_eq_zero.1 hze c
    cases hpc : s.pc c with
    | idle | suspend | sync => rfl
    | copy | call p | clear =>
      rw [hpc] at hc
      cases hc
  | read count =>
    obtain ⟨hrd, rfl⟩ := of_guarded hact
    exact h.read hrd hok
  | interrupted =>
    obtain ⟨-, rfl⟩ := of_guarded hact
    exact h
  | drained =>
    obtain ⟨⟨hhd, -⟩, rfl⟩ := of_guarded hact
    exact h.frame _ rfl (.inr (h.stills_of_handler (by rw [hhd]; nofun))) fun _ => .inl nofun
  | failed =>
    obtain ⟨hhd, rfl⟩ := of_guarded hact
    refine h.stop.frame _ rfl (.inr (h.stills_of_handler (by rw [hhd]; nofun))) fun _ => .inl nofun
  | dispatch =>
    obtain ⟨-, rfl⟩ := of_guarded hact
    unfold FSEventsImpl.dispatchEvents
    split
    · exact h.frame _ rfl (.inl rfl) fun _ => .inr (Nat.succ_pos _)
    · exact h.frame _ rfl (.inl rfl) fun _ => .inr Nat.one_pos
  | begin c | advance c => cases hact

end

/-! ### The callbacks -/

variable [DecidableEq τ]

/-- A callback goes on: it comes to hold the arrays only if none does, and to be past its wait only if the handler does not run. -/
theorem Places.set (h : Places config s) {word : FSEventsImpl} {place : CallbackPlace}
    (hrn : word.running = s.word.running) (hhd : word.handler = s.word.handler)
    (hsus : word.suspensions + (s.pc c).suspends.toNat = s.word.suspensions + place.suspends.toNat)
    (hhl : place.holds = true → (s.pc c).holds = true ∨ ∀ d, (s.pc d).holds = false)
    (hdl : s.pc c = .idle → config.serial = true → ∀ d, s.pc d = .idle)
    (hstill : place.stills = true → s.word.handler = .idle) : Places config (s.set c (word, place)) := by
  refine ⟨?_, ?_, ?_, ?_⟩
  · refine Threads.one_set (P := fun p : CallbackPlace => p.holds = true) h.alone fun hp d hd => ?_
    rcases hhl hp with hc | hnn
    · exact h.alone d c hd hc
    · exact absurd ((hnn d).symm.trans hd) Bool.false_ne_true
  · intro hser
    refine Threads.one_set (P := fun p : CallbackPlace => p ≠ .idle) (h.serial hser) fun _ d hd => ?_
    by_cases hc : s.pc c = .idle
    · exact absurd (hdl hc hser d) hd
    · exact h.serial hser _ _ hd hc
  · have hcount : (s.set c (word, place)).count CallbackPlace.suspends + (s.pc c).suspends.toNat =
        s.count CallbackPlace.suspends + place.suspends.toNat := s.count_set c (word, place) CallbackPlace.suspends
    have hs := h.suspended
    show word.suspensions = _ + if word.running = true then 0 else 1
    rw [hrn]
    omega
  · refine s.forall_set (fun _ p => p.stills = true → word.handler = .idle) ?_ fun d _ => ?_
    · rwa [hhd]
    · rw [hhd]
      exact h.still d

/-- A callback that goes on before its call, without a change of the arrays. -/
theorem Inv.approach (h : Inv config s) {place : CallbackPlace} {suspensions dispatched : Nat} (hcomes : place.comes = true)
    (hcl : s.pc c ≠ .clear) (hcop : ∀ p, place = .call p → p.paths s.word.pathArray = s.word.pathArray)
    (hplac : Places config (s.set c ({ s.word with suspensions := suspensions, dispatched := dispatched }, place))) :
    Inv config (s.set c ({ s.word with suspensions := suspensions, dispatched := dispatched }, place)) := by
  refine ⟨hplac, ⟨h.accounts.flags, h.accounts.ids, h.accounts.last⟩, ?_, ?_, ?_, ?_, h.whole⟩
  · intro hnn
    refine h.passed fun d hd => ?_
    by_cases hdc : d = c
    · exact hcl (hdc ▸ hd)
    · exact hnn d ((Threads.pc_set_of_ne hdc _).trans hd)
  · refine s.forall_set (fun _ p => p = .clear → s.word.delivered = _) ?_ fun d _ => h.passing d
    rintro rfl
    cases hcomes
  · exact s.forall_set (fun _ q => ∀ p, q = .call p → p.paths s.word.pathArray = _) hcop fun d _ => h.copied d
  · intro _ _
    exact .inr (.inr ⟨c, by rw [Threads.pc_set_self]; exact hcomes⟩)

theorem paths_ptrToPass (s : FSEventsImpl) : (s.ptrToPass config).paths s.pathArray = s.pathArray := by
  unfold FSEventsImpl.ptrToPass
  split
  · rfl
  · split
    · exact map_map.trans (map_id _)
    · rfl

/-- The user's callback is passed the entries of the arrays. -/
theorem delivered_callback {s : FSEventsImpl} {ptrToPass : PathPointer}
    (hcop : ptrToPass.paths s.pathArray = s.pathArray) :
    (s.callback ptrToPass).delivered = s.delivered ++ buffered s := by
  have hleng : (buffered s).length ≤ s.pathArray.length := by
    simp [buffered, entries]
  simp only [FSEventsImpl.delivered, FSEventsImpl.callback, flatMap_append, flatMap_singleton, Invocation.events, hcop]
  rw [show entries s.pathArray s.flagArray s.idArray = buffered s from rfl, take_of_length_le hleng]

section

variable (h : Inv config s)

include h

/-- The call: from now on, all that was read has been passed. -/
theorem Inv.call {ptrToPass : PathPointer} (hc : s.pc c = .call ptrToPass) :
    Inv config (s.set c (s.word.callback ptrToPass, .clear)) := by
  have hcop := h.copied c ptrToPass hc
  have hhl : (s.pc c).holds = true := by rw [hc]; rfl
  have hnn : ∀ d, s.pc d ≠ .clear := by
    intro d hd
    have hdc : d = c := h.places.alone d c (by rw [hd]; rfl) hhl
    rw [hdc, hc] at hd
    cases hd
  have hall : (s.word.callback ptrToPass).delivered = reports config s.word.taken := by
    rw [delivered_callback hcop, h.passed hnn]
  refine ⟨?_, ⟨h.accounts.flags, h.accounts.ids, h.accounts.last⟩, ?_, fun _ _ => hall, ?_, ?_, ?_⟩
  · refine h.places.set rfl rfl (by rw [hc]; rfl) (fun _ => .inl hhl) (by rw [hc]; nofun) fun _ => ?_
    exact h.places.still c (by rw [hc]; rfl)
  · intro hno
    exact absurd (Threads.pc_set_self ..) (hno c)
  · exact s.forall_set (fun _ q => ∀ p, q = .call p → p.paths s.word.pathArray = _) nofun fun d _ => h.copied d
  · intro _ hno
    exact absurd (Threads.pc_set_self ..) (hno c)
  · intro i hi
    rcases mem_append.1 hi with hi | hi
    · exact h.whole i hi
    · obtain rfl := mem_singleton.1 hi
      exact ⟨congrArg length hcop, h.accounts.flags, h.accounts.ids⟩

/-- The arrays are emptied, after the only call that has been passed them. -/
theorem Inv.clear (hc : s.pc c = .clear) : Inv config (s.set c (s.word.clear, .idle)) := by
  have hhl : (s.pc c).holds = true := by rw [hc]; rfl
  have hpos : 0 < s.count CallbackPlace.suspends := by
    rw [Nat.pos_iff_ne_zero]
    intro hze
    have := Threads.count_eq_zero.1 hze c
    rw [hc] at this
    cases this
  have hsu := h.places.suspended
  have hthread : ∀ d, ((s.set c (s.word.clear, .idle)).pc d).holds = false :=
    s.forall_set (fun _ p => p.holds = false) rfl fun d hne =>
      Bool.eq_false_iff.2 fun hd => hne (h.places.alone d c hd hhl)
  refine ⟨?_, ⟨rfl, rfl, h.accounts.last⟩, ?_, ?_, ?_, fun hpaths => absurd rfl hpaths, h.whole⟩
  · refine h.places.set rfl rfl ?_ nofun (by rw [hc]; nofun) nofun
    rw [hc]
    show s.word.suspensions - 1 + 1 = s.word.suspensions + 0
    omega
  · intro _
    exact (append_nil _).trans (h.passing c hc)
  · intro d hd
    have hhl := hthread d
    rw [hd] at hhl
    cases hhl
  · intro d p hd
    have hhl := hthread d
    rw [hd] at hhl
    cases hhl

theorem Inv.advance (hok : s.pc c = .copy → config.serial = true ∨ ∀ d, (s.pc d).holds = false)
    {access : FSEventsImpl × CallbackPlace} (hst : FSEvents.advance config s.word (s.pc c) = some access) :
    Inv config (s.set c access) := by
  generalize hc : s.pc c = place at hst
  cases place with
  | idle =>
    cases hst
  | suspend =>
    cases hst
    refine h.approach rfl (by rw [hc]; nofun) nofun ?_
    exact h.places.set rfl rfl (by rw [hc]; rfl) nofun (by rw [hc]; nofun) nofun
  | sync =>
    obtain ⟨hdl, rfl⟩ := of_guarded hst
    refine h.approach rfl (by rw [hc]; nofun) nofun ?_
    exact h.places.set rfl rfl (by rw [hc]; rfl) nofun (by rw [hc]; nofun) fun _ => hdl
  | copy =>
    cases hst
    refine h.approach rfl (by rw [hc]; nofun) ?_ ?_
    · rintro p hp
      obtain rfl := CallbackPlace.call.inj hp
      exact paths_ptrToPass s.word
    · refine h.places.set rfl rfl (by rw [hc]; rfl) (fun _ => .inr fun d => ?_) (by rw [hc]; nofun) fun _ => ?_
      · -- where the callbacks come one after the other, the others are idle
        rcases hok hc with hser | hnn
        · by_cases hd : s.pc d = .idle
          · rw [hd]
            rfl
          · rw [h.places.serial hser d c hd (by rw [hc]; nofun), hc]
            rfl
        · exact hnn d
      · exact h.places.still c (by rw [hc]; rfl)
  | call ptrToPass =>
    cases hst
    exact h.call hc
  | clear =>
    cases hst
    exact h.clear hc

theorem Inv.begin (hbg : s.MayBegin config c) :
    Inv config (s.set c ({ s.word with dispatched := s.word.dispatched - 1 }, .suspend)) := by
  obtain ⟨-, hc, hser⟩ := hbg
  refine h.approach rfl (by rw [hc]; nofun) nofun ?_
  exact h.places.set rfl rfl (by rw [hc]; rfl) nofun (fun _ => hser) nofun

/-! ### Runs -/

theorem Inv.step (hok : s.Keeps config a) (hst : s.step config a = some s') : Inv config s' := by
  cases a with
  | begin c =>
    obtain ⟨hbg, rfl⟩ := of_guarded hst
    exact h.begin hbg
  | advance c =>
    obtain ⟨access, hadv, rfl⟩ := map_eq_some_iff.1 hst
    exact h.advance hok hadv
  | arrive evt | start | stop | wake | read count | interrupted | drained | failed | dispatch =>
    simp only [FSEvents.step] at hst
    obtain ⟨word, hact, rfl⟩ := map_eq_some_iff.1 hst
    exact h.act hok hact

end

theorem inv_of_reaches (h : (machine config τ).Reaches (Keeps config) s) : Inv config s :=
  h.invariant inv_init fun hinv => hinv.step

/-! ## The result -/

/-- What is left to do after a step of a callback. -/
theorem work_set (s : FSEvents τ) (c : τ) (word : FSEventsImpl) (place : CallbackPlace) :
    work (s.set c (word, place)) + (s.pc c).rest =
      word.queued.length + handlerRest word + 6 * word.dispatched + ∑ d, (s.pc d).rest + place.rest := by
  have hsum : ∑ d, ((s.set c (word, place)).pc d).rest + (s.pc c).rest = ∑ d, (s.pc d).rest + place.rest :=
    s.sum_set c (word, place) CallbackPlace.rest
  simp only [work, Threads.word_set]
  omega

/-- A callback is one statement further, and does not concern the handler. -/
theorem advance_rest {word word' : FSEventsImpl} {p p' : CallbackPlace}
    (h : FSEvents.advance config word p = some (word', p')) :
    word'.queued = word.queued ∧ word'.handler = word.handler ∧ word'.dispatched = word.dispatched ∧ p'.rest < p.rest := by
  cases p with
  | idle => cases h
  | suspend | copy | call p | clear =>
    cases h
    exact ⟨rfl, rfl, rfl, Nat.lt_succ_self _⟩
  | sync =>
    obtain ⟨-, heq⟩ := of_guarded h
    cases heq
    exact ⟨rfl, rfl, rfl, Nat.lt_succ_self _⟩

/-- A read takes the events from the kernel's queue. -/
theorem read_rest (config : FSEventsConfig) (word : FSEventsImpl) (count : Nat) :
    (word.read config count).queued = word.queued.drop count ∧ (word.read config count).handler = word.handler ∧
      (word.read config count).dispatched = word.dispatched := by
  unfold FSEventsImpl.read
  dsimp only
  split
  · exact ⟨rfl, rfl, rfl⟩
  · unfold FSEventsImpl.processSingleEvent
    split
    · exact ⟨rfl, rfl, rfl⟩
    · exact ⟨rfl, rfl, rfl⟩

/-- A step of the implementation is one less to do. -/
theorem work_lt (hwr : a.works = true) (hst : s.step config a = some s') : s'.work < s.work := by
  have hwk : s.work = s.word.queued.length + handlerRest s.word + 6 * s.word.dispatched + ∑ d, (s.pc d).rest := rfl
  cases a with
  | arrive evt | start | stop | interrupted | failed => cases hwr
  | begin c =>
    obtain ⟨⟨hpos, hc, -⟩, rfl⟩ := of_guarded hst
    have hset := work_set s c { s.word with dispatched := s.word.dispatched - 1 } .suspend
    have hrs : handlerRest { s.word with dispatched := s.word.dispatched - 1 } = handlerRest s.word := rfl
    rw [hc] at hset
    change _ + 0 = s.word.queued.length + _ + 6 * (s.word.dispatched - 1) + _ + 5 at hset
    omega
  | advance c =>
    obtain ⟨⟨word, place⟩, hadv, rfl⟩ := map_eq_some_iff.1 hst
    have hset := work_set s c word place
    obtain ⟨hque, hhd, hds, hpl⟩ := advance_rest hadv
    rw [handlerRest, hque, hhd] at hset
    rw [handlerRest] at hwk
    omega
  | wake =>
    obtain ⟨word, hact, rfl⟩ := map_eq_some_iff.1 hst
    obtain ⟨⟨hdl, -, hque⟩, rfl⟩ := of_guarded hact
    simp only [work, handlerRest, hdl, if_neg hque]
    omega
  | read count =>
    obtain ⟨word, hact, rfl⟩ := map_eq_some_iff.1 hst
    obtain ⟨⟨hrea, hpos, hle, -⟩, rfl⟩ := of_guarded hact
    obtain ⟨hque, hhd, hds⟩ := read_rest config s.word count
    simp only [work, handlerRest, hque, hhd, hds, hrea, length_drop]
    omega
  | drained =>
    obtain ⟨word, hact, rfl⟩ := map_eq_some_iff.1 hst
    obtain ⟨⟨hrea, hque⟩, rfl⟩ := of_guarded hact
    simp only [work, handlerRest, hrea, if_pos hque]
    omega
  | dispatch =>
    obtain ⟨word, hact, rfl⟩ := map_eq_some_iff.1 hst
    obtain ⟨hdis, rfl⟩ := of_guarded hact
    simp only [work, handlerRest, hdis, FSEventsImpl.dispatchEvents]
    split
    · simp only
      omega
    · simp only
      omega

/-- Between events from outside there are at most as many steps as there is work. -/
theorem length_le_work : ∀ (as : List (FSEventsAction τ)) {s s' : FSEvents τ}, (∀ a ∈ as, a.works = true) →
    (machine config τ).run s as = some s' → as.length ≤ s.work := by
  intro as
  induction as with
  | nil =>
    intro s s' _ _
    exact Nat.zero_le _
  | cons a as ih =>
    intro s s' hwr hrun
    obtain ⟨s₁, hst, hrun⟩ := bind_eq_some_iff.1 hrun
    have hlt : s₁.work < s.work := work_lt (hwr a mem_cons_self) hst
    have hle : as.length ≤ s₁.work := ih (fun b hb => hwr b (mem_cons_of_mem a hb)) hrun
    rw [length_cons]
    omega

/-- Where nothing is left to do, everything that was queued has been read and nobody is underway. -/
theorem idle_of_settled [Nonempty τ] (h : Inv config s) (hrn : s.word.running = true) (hsettled : s.Settled config) :
    s.word.queued = [] ∧ s.word.handler = .idle ∧ s.word.dispatched = 0 ∧ ∀ c, s.pc c = .idle := by
  have hact : ∀ a : FSEventsAction τ, a.works = true → (∀ c, a ≠ .begin c) → (∀ c, a ≠ .advance c) →
      FSEvents.act config s.word a = none := by
    intro a hwr hbg hadv
    have hnn := hsettled a hwr
    cases a with
    | begin c => exact absurd rfl (hbg c)
    | advance c => exact absurd rfl (hadv c)
    | arrive evt | start | stop | wake | read count | interrupted | drained | failed | dispatch =>
      simp only [step] at hnn
      exact map_eq_none_iff.1 hnn
  have hhd : s.word.handler = .idle := by
    cases hpl : s.word.handler with
    | idle => rfl
    | reading =>
      cases hque : s.word.queued with
      | nil =>
        have hnn := hact .drained rfl nofun nofun
        simp [FSEvents.act, hpl, hque] at hnn
      | cons evt queued =>
        -- the first event fits into the buffer
        have hnn := hact (.read 1) rfl nofun nofun
        have hrd : MayRead s.word 1 := by
          refine ⟨hpl, Nat.one_pos, by simp [hque], ?_⟩
          have hlen := evt.len_le
          simp only [hque, take_succ_cons, take_zero, map_cons, map_nil, sum_cons, sum_nil, InotifyEvent.size, readBytes]
          omega
        simp [FSEvents.act, hrd] at hnn
    | dispatching =>
      have hnn := hact .dispatch rfl nofun nofun
      simp [FSEvents.act, hpl] at hnn
  have hpc : ∀ c, s.pc c = .idle := by
    intro c
    have hnn : FSEvents.advance config s.word (s.pc c) = none := map_eq_none_iff.1 (hsettled (.advance c) rfl)
    generalize s.pc c = place at hnn ⊢
    cases place with
    | idle => rfl
    | suspend | copy | call p | clear => cases hnn
    | sync => simp [FSEvents.advance, hhd] at hnn
  have hds : s.word.dispatched = 0 := by
    obtain ⟨c⟩ := ‹Nonempty τ›
    have hnn := hsettled (.begin c) rfl
    simp only [step, ite_eq_right_iff, reduceCtorEq, imp_false] at hnn
    by_contra hne
    exact hnn ⟨Nat.pos_of_ne_zero hne, hpc c, fun _ => hpc⟩
  refine ⟨?_, hhd, hds, hpc⟩
  have hsus : s.word.suspensions = 0 := by
    rw [h.places.suspended, Threads.count_eq_zero.2 fun c => by rw [hpc c]; rfl, hrn]
    rfl
  have hnn := hact .wake rfl nofun nofun
  simpa [FSEvents.act, hhd, hsus] using hnn

/-- The events of known watches are passed to the user's callback, each once and in order, with their paths and flags and with IDs
that increase by one. -/
theorem events_reported_once [Nonempty τ] (h : (machine config τ).Reaches (Keeps config) s) : ReportedOnce config s := by
  have hinv := inv_of_reaches h
  refine ⟨hinv.whole, ?_, fun as s' => length_le_work as, ?_⟩
  · refine List.IsPrefix.trans ?_ (reports_append s.word.taken s.word.queued)
    by_cases hcl : ∀ c, s.pc c ≠ .clear
    · rw [← hinv.passed hcl]
      exact prefix_append ..
    · obtain ⟨c, hc⟩ := not_forall.1 hcl
      rw [hinv.passing c (not_not.1 hc)]
  · intro hrn hsettled
    obtain ⟨hque, hhd, hds, hpc⟩ := idle_of_settled hinv hrn hsettled
    have hcl : ∀ c, s.pc c ≠ .clear := fun c hc => by rw [hpc c] at hc; cases hc
    have hemp : s.word.pathArray = [] := by
      by_contra hne
      rcases hinv.coming hne hcl with hh | hd | ⟨c, hc⟩
      · exact hh hhd
      · omega
      · rw [hpc c] at hc
        cases hc
    have hpas := hinv.passed hcl
    rw [buffered, hemp, entries, zip_nil_left, append_nil] at hpas
    rw [hpas, FSEventsImpl.arrived, hque, append_nil]

def oneWatch : FSEventsConfig where
  flags := createFlagFileEvents
  wdMap wd := if wd = 1 then some "/w" else none
  queue := true
  serial := true

def created (name : String) : InotifyEvent := ⟨1, inCreate, 16, name, by decide⟩

/-- The source reads the queue empty, some events at a time, and the callback is called. -/
def round (counts : List Nat) : List (FSEventsAction Unit) :=
  [.wake] ++ counts.map .read ++ [.drained, .dispatch, .begin ()] ++ replicate 5 (.advance ())

/-- Two files are created, and their events are read one by one. -/
theorem events_reported_once_two :
    ∃ s, (machine oneWatch Unit).Reaches (Keeps oneWatch) s ∧ ReportedOnce oneWatch s ∧
      s.word.delivered = [("/w/a", 0x10100, 1), ("/w/b", 0x10100, 2)] := by
  refine (Machine.exists_reaches_of_runOk (Keeps oneWatch)
    ([.start, .arrive (created "a"), .arrive (created "b")] ++ round [1, 1]) ?_).imp
    fun s h => ⟨h.1, events_reported_once h.1, h.2⟩
  decide +kernel

/-- Two events are read at once, and the second one is lost: the third one is passed to the callback in its place. -/
theorem events_lost_in_burst :
    ∃ s, (machine oneWatch Unit).Reachable s ∧ s.word.arrived = [created "a", created "b", created "c"] ∧
      s.word.delivered = [("/w/a", 0x10100, 1), ("/w/c", 0x10100, 2)] ∧ ¬ReportedOnce oneWatch s := by
  obtain ⟨s, hreach, harr, hdel⟩ := Machine.exists_reachable_of_run (M := machine oneWatch Unit)
    ([.start, .arrive (created "a"), .arrive (created "b")] ++ round [2] ++ [.arrive (created "c")] ++ round [1])
    (P := fun s => s.word.arrived = [created "a", created "b", created "c"] ∧
      s.word.delivered = [("/w/a", 0x10100, 1), ("/w/c", 0x10100, 2)]) (by decide +kernel)
  refine ⟨s, hreach, harr, hdel, fun h => ?_⟩
  have hpref := h.inOrder
  rw [harr, hdel] at hpref
  exact absurd hpref (by decide +kernel)

end FSEvents

end Osxie.CoreServices
