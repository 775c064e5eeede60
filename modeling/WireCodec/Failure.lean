import WireCodec.Tag
import WireCodec.Text.Quoted

/-!
# Failures

What can go wrong with the data, with the sink or with the source, as causes with their numbers; and
the two texts of each cause, the message for a reader and the form shown in diagnostics.
-/

set_option autoImplicit false

namespace WireCodec

inductive IoKind where
  | notFound
  | permissionDenied
  | connectionRefused
  | connectionReset
  | hostUnreachable
  | networkUnreachable
  | connectionAborted
  | notConnected
  | addrInUse
  | addrNotAvailable
  | networkDown
  | brokenPipe
  | alreadyExists
  | wouldBlock
  | notADirectory
  | isADirectory
  | directoryNotEmpty
  | readOnlyFilesystem
  | filesystemLoop
  | staleNetworkFileHandle
  | invalidInput
  | invalidData
  | timedOut
  | writeZero
  | storageFull
  | notSeekable
  | quotaExceeded
  | fileTooLarge
  | resourceBusy
  | executableFileBusy
  | deadlock
  | crossesDevices
  | tooManyLinks
  | invalidFilename
  | argumentListTooLong
  | interrupted
  | unsupported
  | unexpectedEof
  | outOfMemory
  | inProgress
  | other
  | uncategorized
  deriving DecidableEq

namespace IoKind

def all : List IoKind :=
  [.notFound, .permissionDenied, .connectionRefused, .connectionReset, .hostUnreachable,
    .networkUnreachable, .connectionAborted, .notConnected, .addrInUse, .addrNotAvailable,
    .networkDown, .brokenPipe, .alreadyExists, .wouldBlock, .notADirectory, .isADirectory,
    .directoryNotEmpty, .readOnlyFilesystem, .filesystemLoop, .staleNetworkFileHandle,
    .invalidInput, .invalidData, .timedOut, .writeZero, .storageFull, .notSeekable,
    .quotaExceeded, .fileTooLarge, .resourceBusy, .executableFileBusy, .deadlock, .crossesDevices,
    .tooManyLinks, .invalidFilename, .argumentListTooLong, .interrupted, .unsupported,
    .unexpectedEof, .outOfMemory, .inProgress, .other, .uncategorized]

def name : IoKind → String
  | .notFound => "NotFound"
  | .permissionDenied => "PermissionDenied"
  | .connectionRefused => "ConnectionRefused"
  | .connectionReset => "ConnectionReset"
  | .hostUnreachable => "HostUnreachable"
  | .networkUnreachable => "NetworkUnreachable"
  | .connectionAborted => "ConnectionAborted"
  | .notConnected => "NotConnected"
  | .addrInUse => "AddrInUse"
  | .addrNotAvailable => "AddrNotAvailable"
  | .networkDown => "NetworkDown"
  | .brokenPipe => "BrokenPipe"
  | .alreadyExists => "AlreadyExists"
  | .wouldBlock => "WouldBlock"
  | .notADirectory => "NotADirectory"
  | .isADirectory => "IsADirectory"
  | .directoryNotEmpty => "DirectoryNotEmpty"
  | .readOnlyFilesystem => "ReadOnlyFilesystem"
  | .filesystemLoop => "FilesystemLoop"
  | .staleNetworkFileHandle => "StaleNetworkFileHandle"
  | .invalidInput => "InvalidInput"
  | .invalidData => "InvalidData"
  | .timedOut => "TimedOut"
  | .writeZero => "WriteZero"
  | .storageFull => "StorageFull"
  | .notSeekable => "NotSeekable"
  | .quotaExceeded => "QuotaExceeded"
  | .fileTooLarge => "FileTooLarge"
  | .resourceBusy => "ResourceBusy"
  | .executableFileBusy => "ExecutableFileBusy"
  | .deadlock => "Deadlock"
  | .crossesDevices => "CrossesDevices"
  | .tooManyLinks => "TooManyLinks"
  | .invalidFilename => "InvalidFilename"
  | .argumentListTooLong => "ArgumentListTooLong"
  | .interrupted => "Interrupted"
  | .unsupported => "Unsupported"
  | .unexpectedEof => "UnexpectedEof"
  | .outOfMemory => "OutOfMemory"
  | .inProgress => "InProgress"
  | .other => "Other"
  | .uncategorized => "Uncategorized"

def ofName? (s : String) : Option IoKind := all.find? (fun k => k.name == s)

end IoKind

structure IoError where
  kind : IoKind
  message : String
  deriving DecidableEq

/-- What a reader of tagged values was asked for. -/
inductive Wanted where
  | tag (t : Tag)
  | number
  | blob
  | string
  deriving DecidableEq

def Wanted.name : Wanted → String
  | .tag t => t.name
  | .number => "number"
  | .blob => "blob"
  | .string => "string"

inductive Failure where
  /-- A length that its field cannot announce. -/
  | integerOverflow (value max : Nat)
  | io (e : IoError)
  | shortWrite (written expected : Nat)
  | shortRead (read expected : Nat)
  /-- An announced length beyond what a buffer can have. -/
  | lengthTooLarge (length max : Nat)
  | varintOverflow
  | corruptTag (code : UInt8)
  | unexpectedTag (wanted : Wanted) (found : Tag)
  | outOfBounds (pos needed length : Nat)
  | destinationTooSmall (needed capacity : Nat)
  | invalidUtf8
  deriving DecidableEq

def recordText (name : String) (fields : List (String × String)) : String :=
  name ++ " \x7b " ++ ", ".intercalate (fields.map fun (k, v) => k ++ ": " ++ v) ++ " \x7d"

namespace Failure

def name : Failure → String
  | integerOverflow .. => "IntegerOverflow"
  | io _ => "Io"
  | shortWrite .. => "ShortWrite"
  | shortRead .. => "ShortRead"
  | lengthTooLarge .. => "LengthTooLarge"
  | varintOverflow => "VarintOverflow"
  | corruptTag _ => "CorruptTag"
  | unexpectedTag .. => "UnexpectedTag"
  | outOfBounds .. => "OutOfBounds"
  | destinationTooSmall .. => "ScratchTooSmall"
  | invalidUtf8 => "InvalidUtf8"

/-- The message for a reader; a failure of the sink or the source speaks for itself. -/
def message : Failure → String
  | integerOverflow value max => s!"integer overflow: {value} not in [0, {max}]"
  | io e => e.message
  | shortWrite written expected => s!"writer buffer underrun: wrote {written} of {expected} bytes"
  | shortRead read expected => s!"unexpected end of input: read {read} of {expected} bytes"
  | lengthTooLarge length max => s!"decoded length {length} is larger than allowed ({max})"
  | varintOverflow => "varint overflows a 64-bit integer"
  | corruptTag code => "corrupt stream: unknown type tag " ++ toString code.toNat
  | unexpectedTag wanted found =>
    "unexpected type tag: expected " ++ wanted.name ++ ", found " ++ found.name
  | outOfBounds pos needed length =>
    s!"out of bounds: {needed} bytes at position {pos} exceed buffer length {length}"
  | destinationTooSmall needed capacity =>
    s!"destination too small: need {needed} bytes, have {capacity}"
  | invalidUtf8 => "string is not valid UTF-8"

/-- Whether the sink or the source is to blame, and not the data. -/
def isIo : Failure → Bool
  | io _ => true
  | shortWrite .. => true
  | shortRead .. => true
  | _ => false

def toIoError (f : Failure) : IoError :=
  let kind : IoKind :=
    match f with
    | io e => e.kind
    | shortWrite .. => .writeZero
    | shortRead .. => .unexpectedEof
    | _ => .invalidData
  ⟨kind, f.message⟩

def debugText (f : Failure) : String :=
  let fields (kvs : List (String × Nat)) : String :=
    recordText f.name (kvs.map fun (k, v) => (k, toString v))
  match f with
  | integerOverflow value max => fields [("value", value), ("max", max)]
  | io e =>
    f.name ++ "(" ++ recordText "Custom" [("kind", e.kind.name), ("error", quoted e.message)] ++ ")"
  | shortWrite written expected => fields [("written", written), ("expected", expected)]
  | shortRead read expected => fields [("read", read), ("expected", expected)]
  | lengthTooLarge length max => fields [("len", length), ("max", max)]
  | varintOverflow => f.name
  | corruptTag code => f.name ++ "(" ++ toString code.toNat ++ ")"
  | unexpectedTag wanted found =>
    recordText f.name [("expected", quoted wanted.name), ("found", found.debugText)]
  | outOfBounds pos needed length => fields [("pos", pos), ("needed", needed), ("len", length)]
  | destinationTooSmall needed capacity => fields [("needed", needed), ("capacity", capacity)]
  | invalidUtf8 => f.name

end Failure

end WireCodec
