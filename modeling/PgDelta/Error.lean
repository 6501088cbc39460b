import PgDelta.Lib.Bytes

/-!
Everything that can go wrong while a dump is loaded. A variant carries
structural facts only: a length, a table or column name, a fixed text.
-/

namespace PgDelta

inductive Error
  | fieldTooLarge (len limit : ℕ)
  | rowTooLarge (len limit : ℕ)
  | tooManyColumns (count limit : ℕ)
  | fieldCountMismatch (found expected : ℕ)
  | truncatedEscape
  | invalidHexEscape
  | unterminatedCopy (table : String)
  | malformedCopyHeader (offset : ℕ)
  | malformedCreateTable (table : String)
  | unsupportedDumpVersion (found : ℕ)
  | missingDumpVersion
  | unsafeTableName (name : String)
  | unparsableValue (column : String) (expected : String)
  | nonUtf8Text (column : String)
  | unsupportedCompression (format : String)
  | arrow (message : String)
  | delta (message : String)
  | tableExists (table : String)
  | io (message : String)
  | interrupted
  | schemaChanged (table : String) (detail : String)
  | managedTableTarget (uri : String) (marker : String)
  | commitFailed (table : String) (committed total : ℕ) (message : String)
  | internal (detail : String)
  deriving DecidableEq, Repr

/-- The text of an error. -/
def Error.display : Error → String
  | .fieldTooLarge len limit =>
    "field of " ++ toString len ++ " bytes exceeds limit of " ++ toString limit
  | .rowTooLarge len limit =>
    "row of " ++ toString len ++ " bytes exceeds limit of " ++ toString limit
  | .tooManyColumns count limit =>
    "row has " ++ toString count ++ " fields, exceeding limit of " ++ toString limit
  | .fieldCountMismatch found expected =>
    "row has " ++ toString found ++ " fields, expected " ++ toString expected
  | .truncatedEscape => "backslash escape truncated at end of field"
  | .invalidHexEscape => "\\x escape not followed by a hex digit"
  | .unterminatedCopy table => "end of input inside COPY block for table " ++ table
  | .malformedCopyHeader offset => "malformed COPY statement at byte " ++ toString offset
  | .malformedCreateTable table => "malformed CREATE TABLE for " ++ table
  | .unsupportedDumpVersion found =>
    "dump produced by unqualified pg_dump major version " ++ toString found
  | .missingDumpVersion => "dump preamble carries no pg_dump version comment"
  | .unsafeTableName name => "table name escapes the output prefix: " ++ name
  | .unparsableValue column expected =>
    "value in column " ++ column ++ " is not a valid " ++ expected
  | .nonUtf8Text column => "column " ++ column ++ " carries bytes that are not valid UTF-8"
  | .unsupportedCompression format =>
    "dump uses " ++ format ++ " compression, which this build cannot decode"
  | .arrow message => "arrow error: " ++ message
  | .delta message => "delta error: " ++ message
  | .tableExists table => "table " ++ table ++ " already holds data and mode is error-if-exists"
  | .io message => "io error: " ++ message
  | .interrupted => "load interrupted by caller"
  | .commitFailed table committed total message =>
    if committed = 0 then
      "commit failed on table " ++ table ++ ", the first of " ++ toString total ++
        ", so no table changed: " ++ message
    else
      "commit failed on table " ++ table ++ "; " ++ toString committed ++ " of " ++
        toString total ++ " tables were committed, so those " ++ toString committed ++
        " now hold the new contents and the rest hold the previous run's; re-run to restore " ++
        "consistency: " ++ message
  | .schemaChanged table detail =>
    "schema of table " ++ table ++ " differs from the Delta table (" ++ detail ++
      "); only overwrite mode may change a schema"
  | .managedTableTarget uri marker =>
    "output prefix " ++ uri ++ " is catalog-managed storage (matched " ++ marker ++
      ");                  write to an external location and register the tables instead"
  | .internal detail => "internal invariant violated: " ++ detail

end PgDelta
