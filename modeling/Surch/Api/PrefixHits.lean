import Surch.Api.Candidates
import Surch.Index.PrefixRuns

/-! `prefix_hits_internal`: the documents with a term, or a written prefix, that starts with what is
looked up. The terms of a segment on disk are not found. -/
namespace Surch.Api
open Surch.Lib Surch.Postings Surch.Index

variable {Digest : Type}

section Lookup

variable (settings : Settings Digest) (mapping : IndexMapping) (index : DocumentIndex Digest)
  (field value : String)

end Lookup

variable {settings : Settings Digest} {mapping : IndexMapping} {index : DocumentIndex Digest}
  {field value : String} {groups : List (List Addition)}

section Sample

end Sample

end Surch.Api
