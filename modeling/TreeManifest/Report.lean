import TreeManifest.Event

/-!
# Reports

What a step that only looks at the file system gives: the events on its way, in order, and a value
or the failure that ended it. Steps in sequence concatenate their events up to the first failure.
-/

namespace TreeManifest

structure Report (α : Type) where
  events : List Event
  result : Except Failure α

namespace Report

def pure (value : α) : Report α := ⟨[], .ok value⟩

def bind (report : Report α) (next : α → Report β) : Report β :=
  match report.result with
  | .error failure => ⟨report.events, .error failure⟩
  | .ok value => ⟨report.events ++ (next value).events, (next value).result⟩

instance : Monad Report where
  pure := Report.pure
  bind := Report.bind

def fail (failure : Failure) : Report α := ⟨[], .error failure⟩

def note (event : Event) : Report Unit := ⟨[event], .ok ()⟩

def ofExcept (result : Except Failure α) : Report α := ⟨[], result⟩

theorem pure_bind (value : α) (next : α → Report β) : (pure value).bind next = next value := by
  simp [pure, bind]

end Report

end TreeManifest
