import TreeManifest.Decimal.Shortest
import TreeManifest.Fault
import TreeManifest.FileSystem.Resolve
import TreeManifest.Text.Utf8

/-!
# Why a step fails

Every cause for which a step of the program ends without a value, and the one function that words
it. Causes that come from outside are faults; the others name what was wrong with the input.
-/

namespace TreeManifest

inductive Cost where
  | whole (units : Int)
  | real (units : Float)

namespace Cost

def text : Cost → String
  | whole n => toString n
  | real x => Decimal.textStyle.render x

def isNegative : Cost → Bool
  | whole n => n < 0
  | real x => x < 0.0

end Cost

inductive Failure where
  /-- A root or a directory that is not there or is no directory. -/
  | missingDirectory (path : String)
  | access (error : AccessError) (path : String)
  | linkLoop (path : String)
  | unknownHome
  /-- A path with the character U+0000 in it. -/
  | nullInPath
  | invalidPattern (line : String)
  | reversedRange (low high : String) (position : Nat)
  | malformedText (part : Text.Utf8.Malformed)
  | negativeUsage (input output : Int) (cost : Cost)
  /-- An integer beyond the range of doubles. -/
  | hugeInteger
  /-- The `index`-th piece of generated text is a value of another kind. -/
  | notText (index : Nat) (kind : String)
  | missingAttribute (name : String)
  | notIndexable (kind : String)
  | badInteger (text : String)
  | longInteger (digits : Nat)
  | notInteger (kind : String)
  | infiniteInteger
  | undefinedInteger
  | badNumber (text : String)
  | notNumber (kind : String)
  | unknownLevel (name : String)
  /-- A name of the logging library for a text that is no level. -/
  | unusableLevel (value : String)
  /-- A name of the logging library for something that is not a text either, as it is shown. -/
  | untypedLevel (value : String)
  | raised (fault : Fault)

namespace Failure

def reasonText : Text.Utf8.Reason → String
  | .invalidStart => "invalid start byte"
  | .invalidContinuation => "invalid continuation byte"
  | .truncated => "unexpected end of data"

def malformedMessage (part : Text.Utf8.Malformed) : String :=
  let place :=
    if part.size = 1 then
      s!"byte 0x{String.ofList (Text.hexDigits 2 part.first.toNat)} in position {part.start}"
    else s!"bytes in position {part.start}-{part.start + part.size - 1}"
  s!"'utf-8' codec can't decode {place}: {reasonText part.reason}"

def message : Failure → String
  | missingDirectory path => s!"Directory does not exist: {path}"
  | access error path => s!"[Errno {error.number}] {error.text}: {Text.quote path}"
  | linkLoop path => s!"Symlink loop from {Text.quote path}"
  | unknownHome => "Could not determine home directory."
  | nullInPath => "embedded null byte"
  | invalidPattern line => s!"Invalid git pattern: {Text.quote line}"
  | reversedRange low high position => s!"bad character range {low}-{high} at position {position}"
  | malformedText part => malformedMessage part
  | negativeUsage input output cost =>
    s!"usage must be non-negative, got input={input} output={output} cost={cost.text}"
  | hugeInteger => "int too large to convert to float"
  | notText index kind => s!"sequence item {index}: expected str instance, {kind} found"
  | missingAttribute name => s!"'types.SimpleNamespace' object has no attribute {Text.quote name}"
  | notIndexable kind => s!"'{kind}' object is not subscriptable"
  | badInteger text =>
    s!"invalid literal for int() with base 10: {String.ofList ((Text.quote text).toList.take 200)}"
  | longInteger digits =>
    s!"Exceeds the limit (4300 digits) for integer string conversion: value has {digits} digits; "
      ++ "use sys.set_int_max_str_digits() to increase the limit"
  | notInteger kind =>
    s!"int() argument must be a string, a bytes-like object or a real number, not '{kind}'"
  | infiniteInteger => "cannot convert float infinity to integer"
  | undefinedInteger => "cannot convert float NaN to integer"
  | badNumber text => s!"could not convert string to float: {Text.quote text}"
  | notNumber kind => s!"float() argument must be a string or a real number, not '{kind}'"
  | unknownLevel name => s!"module 'logging' has no attribute '{name}'"
  | unusableLevel value => s!"Unknown level: {Text.quote value}"
  | untypedLevel value => s!"Level not an integer or a valid string: {value}"
  | raised fault => fault.message

def category : Failure → Category
  | missingDirectory _ | access .. => .filesystem
  | raised fault => fault.category
  | _ => .unknown

def isHandled : Failure → Bool
  | raised ⟨.interrupt _, _, _, _⟩ => false
  | _ => true

end Failure

namespace FileSystem

def hasNull (p : Path) : Bool := p.parts.any fun part => part.toList.any (·.toNat = 0)

def pathFailure (p : Path) (error : AccessError) : Failure := .access error p.toString

/-- The location that a path stands for where the system finds none, with a loop of links as a
failure. -/
def resolveMissing (fs : FileSystem) (p : Path) : Except Failure Location :=
  match fs.resolvePath p with
  | .resolved location => .ok location
  | .looped location =>
    let written := Path.ofLocation location
    match fs.status written with
    | .error .tooManyLinks => .error (.linkLoop written.toString)
    | _ => .ok location

def resolve (fs : FileSystem) (p : Path) : Except Failure Location :=
  if hasNull p then .error .nullInPath
  else match fs.find p with
    | .ok (location, _) => .ok location
    | .error _ => fs.resolveMissing p

def homeOf? (fs : FileSystem) (user : String) : Option String :=
  if user = "" then fs.home else Mapping.get? user fs.homes

/-- The path of a home directory. One that is written with slashes alone, or not at all, is the
top. -/
def homePath (home : String) : Path :=
  if home.toList.all (· = '/') then ⟨.top, []⟩ else Path.ofString home

/-- A path with a leading `~` or `~user` replaced by the home directory. -/
def expandHome (fs : FileSystem) (p : Path) : Except Failure Path :=
  match p.anchor, p.parts with
  | .here, first :: rest => match first.toList with
    | '~' :: user =>
      if user.any (·.toNat = 0) then .error .nullInPath
      else match fs.homeOf? (String.ofList user) with
        | none => .error .unknownHome
        | some home =>
          if home.toList.head? = some '~' then .error .unknownHome
          else .ok ⟨(homePath home).anchor, (homePath home).parts ++ rest⟩
    | _ => .ok p
  | _, _ => .ok p

def locate (fs : FileSystem) (p : Path) : Except Failure Location := do
  fs.resolve (← fs.expandHome p)

/-- The answer of a test on a path, with an error as the failure that leaves the test. -/
def ask (p : Path) (holds : Entry → Bool) (there : Except AccessError Entry) :
    Except Failure Bool :=
  if hasNull p then .ok false else (answer holds there).mapError (pathFailure p)

def exists? (fs : FileSystem) (p : Path) : Except Failure Bool := ask p (fun _ => true) (fs.status p)

def isDirectory? (fs : FileSystem) (p : Path) : Except Failure Bool :=
  ask p (· = .directory) (fs.status p)

def isFile? (fs : FileSystem) (p : Path) : Except Failure Bool := ask p Entry.isFile (fs.status p)

def isLink? (fs : FileSystem) (p : Path) : Except Failure Bool := ask p Entry.isLink (fs.named p)

end FileSystem

end TreeManifest
