import Redzone.Config.Basic

/-!
# Writing a configuration

A configuration is written as a JSON object with a member for every choice, in the order in which a
record is read.  Nothing in it needs an escape: the names are plain, and so are those of a
platform's parts.
-/

namespace Redzone

namespace Json

def plainString (name : String) : String := "\"" ++ name ++ "\""

/-- An object with plain names as its keys. -/
def object (members : List (String × String)) : String :=
  let inner := ",".intercalate (members.map fun (name, value) => plainString name ++ ":" ++ value)
  "\x7b" ++ inner ++ "\x7d"

def ofBool (value : Bool) : String := if value then "true" else "false"

end Json

def Platform.write (p : Platform) : String :=
  Json.object
    [ ("arch", Json.plainString p.arch.text), ("os", Json.plainString p.os.text),
      ("format", Json.plainString p.format.text) ]

def Config.write (c : Config) : String :=
  Json.object
    [ ("compile_kernel", Json.ofBool c.kernel),
      ("recover", Json.ofBool c.recover),
      ("use_after_scope", Json.ofBool c.useAfterScope),
      ("use_global_gc", Json.ofBool c.globalGc),
      ("use_odr_indicator", Json.ofBool c.odrIndicator),
      ("target", c.platform.write),
      ("mapping_scale", s!"{c.scale}"),
      ("mapping_offset", c.offset.elim "null" fun offset => s!"{offset}"),
      ("instrument_reads", Json.ofBool c.reads),
      ("instrument_writes", Json.ofBool c.writes),
      ("instrument_atomics", Json.ofBool c.atomics),
      ("instrument_mem_intrinsics", Json.ofBool c.bulkMemory),
      ("check_init_order", Json.ofBool c.initOrder),
      ("opt_same_temp", Json.ofBool c.optSameTemp),
      ("opt_stack", Json.ofBool c.optStack),
      ("opt_globals", Json.ofBool c.optGlobals),
      ("skip_promotable_slots", Json.ofBool c.skipPromotable),
      ("instrument_stack", Json.ofBool c.stack),
      ("instrument_globals", Json.ofBool c.globals),
      ("calls_threshold", s!"{c.callsThreshold}"),
      ("max_inline_poisoning_size", s!"{c.maxInlinePoisoning}") ]

end Redzone
