import Trainyard.Config

/-!
# Layout

The directories of one run: the outputs below the target directory, the cached
trees below the cache directory.
-/

set_option autoImplicit false

namespace Trainyard

structure Layout where
  target : Path
  cache : Path
  deriving DecidableEq

namespace Layout

def stepsDir (l : Layout) : Path := l.target.child "02-steps"

def optimizeDir (l : Layout) : Path := l.target.child "03-optimize"

def binarizeDir (l : Layout) : Path := l.target.child "binarize"

def optimizedCacheDir (l : Layout) : Path := l.cache.child "optimized"

def binarizedCacheDir (l : Layout) : Path := l.cache.child "binarized"

def belowHome? (s : String) : Option Path :=
  match s.toList with
  | '~' :: '/' :: r => some ⟨String.ofList r⟩
  | _ => none

def resolve (c : Config) (dir : Path) (home : Option Path) : Except ConfigError Layout :=
  let target := dir.join ⟨c.paths.target⟩
  match belowHome? c.paths.cache, home with
  | none, _ => .ok ⟨target, dir.join ⟨c.paths.cache⟩⟩
  | some rest, some home => .ok ⟨target, home.join rest⟩
  | some _, none => .error .homeUnset

end Layout

end Trainyard
