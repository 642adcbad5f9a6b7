import Osxie.CoreServices.FSEvents
import Osxie.LaunchServices.Registration

/-!
# File system events of bundles

launchservicesd watches three directories. Its callback looks at files only, and those are reported to a stream that was created
for file events, which this one is not (`fsEventCallback_eq_nil`).
-/

namespace Osxie.LaunchServices

open CoreServices CoreServices.FSEvents CoreServices.FSEventsImpl List

/-- `MONITORED_DIRECTORIES`. -/
def monitoredDirectories : List String := ["/System/Library/Frameworks", "/Applications", "/System/Applications"]

/-- `_wdMap`, by what `inotify_add_watch` returns for a directory. A directory replaces those before it that have its descriptor. -/
def wdMap (addWatch : String → Int) (wd : Int) : Option String := monitoredDirectories.reverse.find? fun path => addWatch path = wd

/-- The daemon's stream, as it would be created with some flags. -/
def bundleStream (flags : Nat) (addWatch : String → Int) : FSEventsConfig := ⟨flags, wdMap addWatch, true, true⟩

def watchForBundles (addWatch : String → Int) : FSEventsConfig := bundleStream createFlagUseCFTypes addWatch

def lastPathComponent (path : String) : String :=
  String.ofList ((path.toList.reverse.dropWhile (· = '/')).takeWhile (· ≠ '/')).reverse

def stringByDeletingLastPathComponent (path : String) : String :=
  let dir := ((path.toList.reverse.dropWhile (· = '/')).dropWhile (· ≠ '/')).dropWhile (· = '/')
  if dir = [] ∧ path.toList.head? = some '/' then "/" else String.ofList dir.reverse

def bundlePath (change : String) : String := stringByDeletingLastPathComponent (stringByDeletingLastPathComponent change)

variable (bundleCreate : String → Option InfoDictionary)

/-- What is done about a change: the bundle of an Info.plist is processed, or deleted. -/
def fsEventAction (change : Report) : Option RegistryAction :=
  if hasAny change.2.1 eventFlagItemIsFile ∧ nocase (lastPathComponent change.1) = nocase "Info.plist" then
    match bundleCreate (bundlePath change.1) with
    | some info => some (.process (bundlePath change.1) info)
    | none => some (.deleteBundleAtPath (bundlePath change.1))
  else none

def fsEventCallback (changes : List Report) : List RegistryAction := changes.filterMap (fsEventAction bundleCreate)

/-- An event for a file named Info.plist, on a watch of a stream. -/
structure PlistEvent (config : FSEventsConfig) where
  evt : InotifyEvent
  watchPath : String
  known : config.wdMap evt.wd = some watchPath
  isFile : hasAny evt.mask inIsDir = false
  len_ne : evt.len ≠ 0
  named : nocase evt.name = nocase "Info.plist"

namespace PlistEvent

variable {config : FSEventsConfig} (e : PlistEvent config)

def path : String := e.watchPath ++ "/" ++ e.evt.name

/-- What the daemon does when the event is reported. -/
def actions : List RegistryAction := fsEventCallback bundleCreate (reports config [e.evt])

/-- No record has a path. -/
def Unrecorded (db : Database) (path : String) : Prop := ∀ r ∈ db.bundle.rows, r.2.path ≠ path

/-- The daemon processes the bundle with the file, or deletes its record if none can be created. -/
def Handled (checksum : InfoDictionary → Nat) (s : Registry) : Prop :=
  match bundleCreate (bundlePath e.path) with
  | some info => e.actions bundleCreate = [.process (bundlePath e.path) info]
  | none => e.actions bundleCreate = [.deleteBundleAtPath (bundlePath e.path)] ∧
    Unrecorded ((e.actions bundleCreate).foldl (Registry.step checksum) s).db (bundlePath e.path)

theorem lastPathComponent_path : lastPathComponent e.path = e.evt.name := by
  have hnamed := e.named
  have hslash : ∀ c ∈ e.evt.name.toList, c ≠ '/' := by
    rintro c hc rfl
    have hlow : '/' ∈ nocase "Info.plist" := hnamed ▸ mem_map_of_mem hc
    exact absurd hlow (by decide)
  have hdrop (dir : List Char) : (e.evt.name.toList.reverse ++ dir).dropWhile (· = '/') = e.evt.name.toList.reverse ++ dir := by
    cases hname : e.evt.name.toList.reverse with
    | nil => simp [nocase, reverse_eq_nil_iff.1 hname] at hnamed
    | cons c name => simp [hslash c (mem_reverse.1 (hname ▸ mem_cons_self))]
  simp only [lastPathComponent, path, String.toList_append, reverse_append, hdrop]
  rw [takeWhile_append_of_pos (by simpa using hslash)]
  simp

theorem isFile_eventFlags (h : hasAny config.flags createFlagFileEvents) :
    hasAny (eventFlags config e.evt) eventFlagItemIsFile := by
  rw [eventFlags, if_neg (not_not.2 h), e.isFile]
  simp only [hasAny, Nat.and_or_distrib_right]
  simp [eventFlagItemIsFile]

/-- Without file events nothing is done, whatever happens in the directories. -/
theorem fsEventCallback_eq_nil (h : ¬hasAny config.flags createFlagFileEvents) (evts : List InotifyEvent) :
    fsEventCallback bundleCreate (reports config evts) = [] := by
  refine filterMap_eq_nil_iff.2 fun change hchange => if_neg fun hfile => ?_
  obtain ⟨⟨⟨path, flags⟩, i⟩, hr, rfl⟩ := mem_map.1 hchange
  obtain ⟨evt, -, hevt⟩ := mem_filterMap.1 (fst_mem_of_mem_zipIdx hr)
  obtain ⟨watchPath, -, hevt⟩ := Option.map_eq_some_iff.1 hevt
  have hzero : flags = 0 := by
    rw [← (Prod.mk.inj hevt).2, eventFlags, if_pos h]
  exact absurd hfile.1 (by simp [hzero, hasAny])

/-- An event is handled exactly if the stream reports files, and there is a bundle or no record to delete. -/
theorem handled_iff_fileEvents {flags : Nat} {addWatch : String → Int} (e : PlistEvent (bundleStream flags addWatch))
    (checksum : InfoDictionary → Nat) (s : Registry) : e.Handled bundleCreate checksum s ↔
      hasAny flags createFlagFileEvents ∧ (bundleCreate (bundlePath e.path) = none → Unrecorded s.db (bundlePath e.path)) := by
  by_cases hflag : hasAny flags createFlagFileEvents
  · have hpath : fullPath (bundleStream flags addWatch) e.evt e.watchPath = e.path := by
      simp [fullPath, bundleStream, hflag, e.len_ne, path]
    have hact : e.actions bundleCreate = match bundleCreate (bundlePath e.path) with
        | some info => [.process (bundlePath e.path) info]
        | none => [.deleteBundleAtPath (bundlePath e.path)] := by
      have hchange : hasAny (eventFlags (bundleStream flags addWatch) e.evt) eventFlagItemIsFile ∧
          nocase (lastPathComponent e.path) = nocase "Info.plist" :=
        ⟨e.isFile_eventFlags hflag, by rw [e.lastPathComponent_path, e.named]⟩
      simp only [actions, reports, derived, e.known, fsEventCallback, Option.map_some, filterMap_cons, filterMap_nil, zipIdx_cons,
        zipIdx_nil, map_cons, map_nil, hpath, fsEventAction, if_pos hchange]
      cases bundleCreate (bundlePath e.path) <;> rfl
    unfold Handled
    cases hcreate : bundleCreate (bundlePath e.path) with
    | none =>
      rw [hcreate] at hact
      simp [hact, hflag, Registry.step, Database.deleteBundleAtPath, Database.executeQuery]
    | some info =>
      rw [hcreate] at hact
      simp [hact, hflag]
  · have hact : e.actions bundleCreate = [] := fsEventCallback_eq_nil bundleCreate hflag [e.evt]
    unfold Handled
    cases bundleCreate (bundlePath e.path) <;> simp [hact, hflag]

/-- The Info.plist directly in /Applications is written. -/
def written : PlistEvent (watchForBundles fun path => if path = "/Applications" then 2 else 1) where
  evt := ⟨2, inModify, 11 + 5, "Info.plist", by decide⟩
  watchPath := "/Applications"
  known := by decide
  isFile := rfl
  len_ne := Nat.succ_ne_zero 15
  named := rfl

theorem written_not_handled :
    ¬written.Handled (fun _ => some (Registry.application [] [])) Registry.size (Registry.machine Registry.size).init := by
  have hact : written.actions (fun _ => some (Registry.application [] [])) = [] :=
    fsEventCallback_eq_nil _ (by decide) [written.evt]
  simp [Handled, hact]

end PlistEvent

end Osxie.LaunchServices
