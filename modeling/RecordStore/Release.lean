/-!
The release of the library.
-/

namespace RecordStore

def releaseVersion : String := "0.1.0"

end RecordStore
