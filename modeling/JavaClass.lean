import JavaClass.Main
import JavaClass.Proofs.Assembly.ReadingBack
import JavaClass.Proofs.Assembly.Refusals
import JavaClass.Proofs.Catalog.Archives
import JavaClass.Proofs.Catalog.Renaming
import JavaClass.Proofs.ClassDef.Arrival
import JavaClass.Proofs.ClassDef.Constants
import JavaClass.Proofs.ClassDef.Grants
import JavaClass.Proofs.ClassDef.LabelChecks
import JavaClass.Proofs.ClassDef.Labels
import JavaClass.Proofs.ClassDef.Shrinking
import JavaClass.Proofs.ClassDef.Spellings
import JavaClass.Proofs.ClassDef.Truncation
import JavaClass.Proofs.Constant.Equality
import JavaClass.Proofs.Constant.Layout
import JavaClass.Proofs.Container.Directories
import JavaClass.Proofs.Loading.Agreement
import JavaClass.Proofs.SlotVector.Lookups
