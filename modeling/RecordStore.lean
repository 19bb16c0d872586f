import RecordStore.Proofs.Cursor.Advancing
import RecordStore.Proofs.Engine.Cataloguing
import RecordStore.Proofs.Engine.Durability
import RecordStore.Proofs.Engine.GeneratedKeys
import RecordStore.Proofs.Engine.IndexCreation
import RecordStore.Proofs.Engine.Overlaps
import RecordStore.Proofs.Engine.Scopes
import RecordStore.Proofs.Engine.Waiting
import RecordStore.Proofs.Query.InlineKeys
import RecordStore.Proofs.Query.Lookups
import RecordStore.Proofs.RangeExpression
import RecordStore.Proofs.Schema.Reconciliation
import RecordStore.Proofs.Session.Batches
import RecordStore.Proofs.Session.Places
import RecordStore.Release
import RecordStore.Script.Perform
import RecordStore.Script.Registering
import RecordStore.SessionScript.Perform
import RecordStore.Proofs.Document.Members
import RecordStore.Proofs.Document.Misreading
import RecordStore.Proofs.Collection.HandedBack
import RecordStore.Proofs.Session.HandedBack
import RecordStore.Proofs.Session.Jobs
import RecordStore.Proofs.Session.Interleaving
import RecordStore.Proofs.Session.Serial
import RecordStore.Proofs.Session.Endings
import RecordStore.Proofs.Collection.FixedPoints
import RecordStore.Proofs.Cursor.DateKeys
import RecordStore.Proofs.Query.StrictEquality
import RecordStore.Proofs.Engine.Storing
import RecordStore.Proofs.Cursor.HittingRows
import RecordStore.Proofs.KeyPath.Placing
import RecordStore.Proofs.Text.PercentEncoded
import RecordStore.Proofs.Files
import RecordStore.Proofs.Registry.Owners
import RecordStore.Proofs.Query.Building
