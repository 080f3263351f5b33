import Redzone.Config.Basic
import Redzone.Json.Record

/-!
# Reading a configuration

A configuration is a JSON record of all its choices.  What is missing has its default.
-/

namespace Redzone

namespace Platform

/-- Read one of some values by its name. -/
def named {α : Type} (text : α → String) (values : List α) : Json.Scanner α :=
  Json.choice (values.map fun value => (text value, value))

def fields : List (Json.Field Platform) :=
  [ .of "arch" (named Arch.text [.x86_64, .aarch64]) fun p value => { p with arch := value },
    .of "os" (named Os.text [.linux, .freeBsd, .macOs]) fun p value => { p with os := value },
    .of "format" (named ObjectFormat.text [.elf, .machO, .coff])
      fun p value => { p with format := value } ]

end Platform

namespace Config

/-- A whole number that fits a word. -/
def natural : Json.Scanner Nat := Json.natural Json.maxNatural

def fields : List (Json.Field Config) :=
  [ .of "compile_kernel" Json.bool fun c value => { c with kernel := value },
    .of "recover" Json.bool fun c value => { c with recover := value },
    .of "use_after_scope" Json.bool fun c value => { c with useAfterScope := value },
    .of "use_global_gc" Json.bool fun c value => { c with globalGc := value },
    .of "use_odr_indicator" Json.bool fun c value => { c with odrIndicator := value },
    .of "target" (Json.record Platform.fields {}) fun c value => { c with platform := value },
    .of "mapping_scale" (Json.natural 255) fun c value => { c with scale := value },
    .of "mapping_offset" (Json.optional natural) fun c value => { c with offset := value },
    .of "instrument_reads" Json.bool fun c value => { c with reads := value },
    .of "instrument_writes" Json.bool fun c value => { c with writes := value },
    .of "instrument_atomics" Json.bool fun c value => { c with atomics := value },
    .of "instrument_mem_intrinsics" Json.bool fun c value => { c with bulkMemory := value },
    .of "check_init_order" Json.bool fun c value => { c with initOrder := value },
    .of "opt_same_temp" Json.bool fun c value => { c with optSameTemp := value },
    .of "opt_stack" Json.bool fun c value => { c with optStack := value },
    .of "opt_globals" Json.bool fun c value => { c with optGlobals := value },
    .of "skip_promotable_slots" Json.bool fun c value => { c with skipPromotable := value },
    .of "instrument_stack" Json.bool fun c value => { c with stack := value },
    .of "instrument_globals" Json.bool fun c value => { c with globals := value },
    .of "calls_threshold" natural fun c value => { c with callsThreshold := value },
    .of "max_inline_poisoning_size" natural
      fun c value => { c with maxInlinePoisoning := value } ]

/-- Read a configuration, which need not be one that can be used. -/
def read (text : String) : Except Json.ReadError Config := Json.whole (Json.record fields {}) text

/-- Why a text gives no configuration. -/
inductive TextError
  | text (cause : Json.ReadError)
  | setting (cause : InstrumentError)
  deriving DecidableEq

/-- Read a configuration that can be used. -/
def ofJson (text : String) : Except TextError Config :=
  match read text with
  | .error cause => .error (.text cause)
  | .ok config =>
      match config.validate with
      | .error cause => .error (.setting cause)
      | .ok () => .ok config

end Config

end Redzone
