/-!
# Platforms

What the instrumented program is compiled for, as far as the instrumentation has to know.
-/

namespace Redzone

inductive Arch
  | x86_64
  | aarch64
  deriving DecidableEq

def Arch.text : Arch → String
  | .x86_64 => "x86_64"
  | .aarch64 => "aarch64"

inductive Os
  | linux
  | freeBsd
  | macOs
  deriving DecidableEq

def Os.text : Os → String
  | .linux => "linux"
  | .freeBsd => "freebsd"
  | .macOs => "macos"

/-- Object file format.  It decides how the descriptors of globals can reach the runtime. -/
inductive ObjectFormat
  | elf
  | machO
  | coff
  deriving DecidableEq

def ObjectFormat.text : ObjectFormat → String
  | .elf => "elf"
  | .machO => "macho"
  | .coff => "coff"

/-- What the program is compiled for. -/
structure Platform where
  arch : Arch := .x86_64
  os : Os := .linux
  format : ObjectFormat := .elf
  deriving DecidableEq

end Redzone
