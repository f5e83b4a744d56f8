import TreeManifest.Text.Quoted

/-!
# Faults of the outside world

An error that the operating system or the model provider raises, as the program meets it: what sort
it is, its text, and the status code that it carries if it carries one. `category` sorts faults into
the classes that an operator acts on, first by status code and then by sort.
-/

namespace TreeManifest

inductive SystemError where
  | blocking
  | childProcess
  | connection
  | brokenPipe
  | connectionAborted
  | connectionRefused
  | connectionReset
  | exists
  | notFound
  | interrupted
  | isDirectory
  | notDirectory
  | permission
  | processLookup
  | timedOut
  | other
  deriving DecidableEq, Repr

inductive ProviderError where
  | rateLimit
  | authentication
  | notFound
  | internalServer
  | apiConnection
  | timeout
  | badRequest
  | contextWindowExceeded
  | contentPolicyViolation
  | serviceUnavailable
  | other (name : String)
  deriving DecidableEq, Repr

namespace ProviderError

def name : ProviderError → String
  | rateLimit => "RateLimitError"
  | authentication => "AuthenticationError"
  | notFound => "NotFoundError"
  | internalServer => "InternalServerError"
  | apiConnection => "APIConnectionError"
  | timeout => "Timeout"
  | badRequest => "BadRequestError"
  | contextWindowExceeded => "ContextWindowExceededError"
  | contentPolicyViolation => "ContentPolicyViolationError"
  | serviceUnavailable => "ServiceUnavailableError"
  | other name => name

end ProviderError

inductive FaultSort where
  | system (error : SystemError)
  | provider (error : ProviderError)
  /-- A key that a table does not have; its text is quoted. -/
  | missingKey
  /-- A request to end the program, which no step handles. -/
  | interrupt (name : String)
  | other (name : String)
  deriving DecidableEq, Repr

structure Fault where
  sort : FaultSort
  detail : String
  /-- The number of a system error, where it is known. -/
  number : Option Int
  status : Option Int
  deriving DecidableEq, Repr

def Fault.message (fault : Fault) : String :=
  match fault.number, fault.sort with
  | some n, _ => s!"[Errno {n}] {fault.detail}"
  | none, .provider error => s!"litellm.{error.name}: {fault.detail}"
  | none, .missingKey => Text.quote fault.detail
  | none, _ => fault.detail

/-- Classes of errors by what an operator can do about them. -/
inductive Category where
  /-- Too many requests, or a dropped connection. -/
  | transient
  | server
  | timeout
  /-- Refused by the provider: a bad key, an unknown model. -/
  | client
  /-- An unreadable tree or an unwritable manifest. -/
  | filesystem
  | unknown
  deriving DecidableEq, Repr

namespace Category

def text : Category → String
  | transient => "transient"
  | server => "server"
  | timeout => "timeout"
  | client => "client"
  | filesystem => "filesystem"
  | unknown => "unknown"

def retryable : Category → Bool
  | transient | server | timeout => true
  | client | filesystem | unknown => false

def ofStatus? (status : Int) : Option Category :=
  if status = 408 then some timeout
  else if status = 429 then some transient
  else if 400 ≤ status ∧ status < 500 then some client
  else if 500 ≤ status ∧ status < 600 then some server
  else none

def ofSystemError : SystemError → Category
  | .timedOut => timeout
  | .connection | .brokenPipe | .connectionAborted | .connectionRefused | .connectionReset =>
    transient
  | _ => filesystem

end Category

def Fault.category (fault : Fault) : Category :=
  match fault.status.bind Category.ofStatus? with
  | some category => category
  | none => match fault.sort with
    | .system error => Category.ofSystemError error
    | _ => .unknown

end TreeManifest
