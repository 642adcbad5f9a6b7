import Osxie.Rpc.Layout
import Osxie.Rpc.Message

/-!
# Descriptors in calls and replies

A wrapper carries a parameter of type `@fd` as a descriptor of the message, and puts an index in its place in the body.

The client counts the index over all `@fd` parameters (`encodeBody`), but packs only the descriptors that are not negative
(`packDescriptors`). The server takes a descriptor out of the request at the index among those still present (`extractFields`),
so that each one taken moves the later ones down. The control buffer of the call has the length of all its slots, whose bytes
behind the packed descriptors nobody has written (`trailingHeader`).

In the reply the indices follow the packing, but the message has no room for descriptors when it is made and grows by a slot at
each push, and `ensureDescriptorHeader` does not copy what was there.

A descriptor stands for the open file it names, so the same number is used at both ends of the socket.
-/

namespace Osxie.Rpc

abbrev Field := Param × Int

/-- What the other end is to hold for a parameter: what was given, and -1 for any negative descriptor. -/
def expected (f : Field) : Field :=
  if isFd f.1 ∧ f.2 < 0 then (f.1, -1) else f

/-! ## The call -/

/-- A datagram as it is sent: its length, its body, and the descriptors that go with it. -/
structure Datagram where
  size : Nat
  body : List Field
  descriptors : List Int
deriving DecidableEq

def Structures.callSize (s : Structures) : Nat := (rpcLayout .lp64 callhdr s.call).size

def cmsgAlign (n : Nat) : Nat := (n + 7) / 8 * 8

def cmsgSpace (n : Nat) : Nat := 16 + cmsgAlign n

/-- A message as `receiveMany` leaves it: the number of bytes received, the body they hold, and the control data. -/
structure Received where
  size : Nat
  body : List Field
  message : Message
deriving DecidableEq

/-- A datagram is received in a message made with the default room, 256 bytes and 4 descriptors; what does not fit is cut. -/
def receive (creds : Credentials) (d : Datagram) : Received := ⟨min d.size 256, d.body, ⟨some creds, d.descriptors.take 4⟩⟩

/-- An `int32_t` passed as a `size_t`. -/
def toSizeT (v : Int) : Nat :=
  if v < 0 then (2 ^ 64 + v).toNat else v.toNat

def checkin : Signature where
  name := "checkin"
  callParameters := [⟨"is_fork", "bool", none⟩, ⟨"stack_hint", "void*", some "uint64_t"⟩, ⟨"lifetime_listener_pipe", "@fd", none⟩]
  replyParameters := []

/-- What a checkin that registers its process gives the new `Process`: the pipe is taken out of the request, and the body then
says -1. -/
def takeLifetimePipe : Message → List Field → Int × Message × List Field
  | m, [] => (-1, m, [])
  | m, (p, v) :: fs =>
    if p.name = "lifetime_listener_pipe" then
      if v ≠ -1 then
        let r := m.extractDescriptorAtIndex (toSizeT v)
        (r.1, r.2, (p, -1) :: fs)
      else
        (-1, m, (p, v) :: fs)
    else
      let r := takeLifetimePipe m fs
      (r.1, r.2.1, (p, v) :: r.2.2)

/-- The constructor of a call class: the body is copied, and each `@fd` parameter takes its descriptor out of the request. -/
def extractFields : Message → List Field → List Field × Message
  | m, [] => ([], m)
  | m, (p, v) :: fs =>
    if isFd p then
      let r := m.extractDescriptorAtIndex (toSizeT v)
      let rest := extractFields r.2 fs
      ((p, r.1) :: rest.1, rest.2)
    else
      let rest := extractFields m fs
      ((p, v) :: rest.1, rest.2)

/-- What `callFromMessage` leaves: the body of the call object, the pipe given to a `Process` it registered (-1 for none), and the
request message, which closes the descriptors it still has. -/
structure CallObject where
  body : List Field
  lifetimePipe : Int
  left : Message
deriving DecidableEq

/-- The part of `callFromMessage` that builds the call object. -/
def callFromMessage (sig : Signature) (s : Structures) (registers : Bool) (r : Received) : Except String CallObject :=
  if r.size < (declLayout .lp64 callhdr).size then
    .error "Message buffer was too small for call header"
  else
    let taken := if sig = checkin ∧ registers then takeLifetimePipe r.message r.body else (-1, r.message, r.body)
    if r.size < s.callSize then
      .error ("Message buffer was too small for dserver_call_" ++ sig.name ++ "_t")
    else
      let built := extractFields taken.2.1 taken.2.2
      .ok ⟨built.1, taken.1, built.2⟩

/-- What the server holds for each parameter: the call object's field, or the `Process`'s pipe where it was given one. -/
def CallObject.held (c : CallObject) : List Field :=
  c.body.map (fun f => if f.1.name = "lifetime_listener_pipe" ∧ c.lifetimePipe ≠ -1 then (f.1, c.lifetimePipe) else f)

variable (uninit : Nat → Nat → Int) (ours : Credentials)

end Osxie.Rpc
