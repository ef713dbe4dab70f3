import Lucanthrope.Common.Exception
import Lucanthrope.Common.Memory
import Lucanthrope.Common.Keyed
import Lucanthrope.IO.IndexIOBase
import Lucanthrope.IO.Codec
import Lucanthrope.IO.IndexOutput
import Lucanthrope.IO.OutputRuns
import Lucanthrope.IO.OutputSpec
import Lucanthrope.IO.IndexInput
import Lucanthrope.IO.InputSpec
import Lucanthrope.IO.Decode
import Lucanthrope.Storage.RAMFile
import Lucanthrope.IO.RAMFileIndexOutput
import Lucanthrope.IO.InputCalls
import Lucanthrope.IO.Values
import Lucanthrope.IO.RAMFileIndexInput
import Lucanthrope.Storage.RAMDirectory
import Lucanthrope.Storage.References
import Lucanthrope.Storage.Placeholders
import Lucanthrope.Storage.RoundTrip
import Lucanthrope.Storage.Lookups
import Lucanthrope.Analysis.CharTokenizer
import Lucanthrope.Analysis.TokenStream
import Lucanthrope.Analysis.Analyzers
import Lucanthrope.Storage.Locks
import Lucanthrope.IO.Footprint
import Lucanthrope.Storage.Isolation
import Lucanthrope.Storage.Reading
import Lucanthrope.Storage.Teardown
import Lucanthrope.Document.Document
